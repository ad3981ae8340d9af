import HackStack.Proofs.Asm.Variables
import HackStack.Proofs.Lowering.Mirrors

/-!
# Symbols of static cells

The symbol of a static cell holds a dot, so it is neither predefined nor a label, and the assembler makes a variable
of it. It is read back as the name of the file and the index. Lines that mirror those with slots load no other symbols
that would become variables, and whatever is lowered with slots is lowered with symbols, to lines that mirror it.
-/

namespace HackStack

open Asm Template

/-! ## Symbols -/

theorem dot_mem_staticSymbol (name : Text) (index : Nat) : 46 ∈ staticSymbol name index := by
  simp [staticSymbol]

theorem isSymbol_staticSymbol {name : Text} (h : isSymbol name = true) (index : Nat) :
    isSymbol (staticSymbol name index) = true := by
  have hdotted : isSymbol (name ++ [46]) = true := by
    cases name with
    | nil => cases h
    | cons b rest =>
      simp only [isSymbol, Bool.and_eq_true] at h
      simp only [List.cons_append, isSymbol, Bool.and_eq_true]
      refine ⟨h.1, ?_⟩
      rw [← List.cons_append, List.all_append, h.2]
      rfl
  have hnumbered := isSymbol_numbered hdotted index
  simpa [staticSymbol] using hnumbered

theorem staticSymbol_read {name : Text} (hslash : 47 ∉ name) (h : name.Unbroken) (index : Nat) :
    46 ∈ staticSymbol name index ∧ 47 ∉ staticSymbol name index ∧ (staticSymbol name index).Unbroken := by
  have hdigits : 47 ∉ Text.decimal index := Text.not_mem_decimal (by decide) index
  have hgraphic : (46 :: Text.decimal index).all Text.isGraphic = true := by
    rw [List.all_cons, all_isGraphic_decimal]
    decide
  refine ⟨dot_mem_staticSymbol name index, ?_, h.append_graphic hgraphic⟩
  simp [staticSymbol, hslash, hdigits]

/-- The index begins behind the last dot. -/
theorem staticSymbol_injective {name name' : Text} {index index' : Nat}
    (h : staticSymbol name index = staticSymbol name' index') : name = name' ∧ index = index' := by
  have hcut : ∀ (name : Text) (index : Nat), Text.cut? 46 (staticSymbol name index).reverse =
      some ((Text.decimal index).reverse, name.reverse) := by
    intro name index
    have hdigits : 46 ∉ (Text.decimal index).reverse := by
      rw [List.mem_reverse]
      exact Text.not_mem_decimal (by decide) index
    have hreverse : (staticSymbol name index).reverse = (Text.decimal index).reverse ++ 46 :: name.reverse := by
      simp [staticSymbol]
    rw [hreverse, Text.cut?_append hdigits]
  have hparts := hcut name index
  rw [h, hcut name' index', Option.some.injEq, Prod.mk.injEq] at hparts
  exact ⟨(List.reverse_inj.mp hparts.2).symm, (Text.decimal_injective (List.reverse_inj.mp hparts.1)).symm⟩

theorem initialTable_of_dot {name : Text} (h : 46 ∈ name) : initialTable[name]? = none := by
  refine getElem?_foldl_insert ?_ (by simp)
  intro hname
  have hnodot : ∀ name ∈ predefined.map Prod.fst, 46 ∉ name := by decide
  exact hnodot name hname h

/-! ## Mirrored lines -/

namespace Mirrors

section
variable {L : Text → Prop} {S : Nat → Text → Prop} {τ : Ties} {ls ls' : List Line} {ps : List Purpose}

/-- How two mirrored lines are related: they are the same, or load the slot and the symbol of a static variable. -/
inductive Pair (S : Nat → Text → Prop) : Line → Line → Prop
  | same (l : Line) : Pair S l l
  | static {n : Nat} {name : Text} : S n name → Pair S (load (.constant n)) (load (.symbol name))

theorem pairs (h : Mirrors L S τ ls ls' ps) : List.Forall₂ (Pair S) ls ls' := by
  induction h with
  | nil => exact .nil
  | forget _ ih => exact ih
  | static hs _ ih => exact .cons (.static hs) ih
  | remark _ _ ih | label _ _ ih | register _ _ _ _ ih | constant _ _ ih | target _ _ ih | assign _ _ ih
  | jump _ _ _ _ _ ih => exact .cons (.same _) ih

theorem sameLabels (h : Mirrors L S τ ls ls' ps) : List.Forall₂ SameLabels ls ls' := by
  refine h.pairs.imp ?_
  rintro l l' (⟨⟩ | ⟨hs⟩)
  · cases l <;> trivial
  · trivial

theorem instructions_length (h : Mirrors L S τ ls ls' ps) : (instructions ls).length = (instructions ls').length := by
  have hpairs := h.pairs
  clear h
  induction hpairs with
  | nil => rfl
  | @cons l l' ls ls' hpair _ ih =>
    cases hpair with
    | same => cases l <;> simp [instructions, ih]
    | static => simp [instructions, load, ih]

theorem legal_or_static (h : Mirrors L S τ ls ls' ps) (hl : ∀ l ∈ ls, l.Legal) :
    ∀ l ∈ ls', l.Legal ∨ ∃ n name, S n name ∧ l = load (.symbol name) := by
  have hpairs := h.pairs
  clear h
  induction hpairs with
  | nil => simp
  | cons hpair _ ih =>
    rw [List.forall_mem_cons] at hl ⊢
    refine ⟨?_, ih hl.2⟩
    cases hpair with
    | same => exact .inl hl.1
    | static hs => exact .inr ⟨_, _, hs, rfl⟩

theorem legal (h : Mirrors L S τ ls ls' ps) (hS : ∀ n name, S n name → isSymbol name = true)
    (hl : ∀ l ∈ ls, l.Legal) : ∀ l ∈ ls', l.Legal := by
  intro l hm
  obtain hlegal | ⟨n, name, hs, rfl⟩ := h.legal_or_static hl l hm
  · exact hlegal
  · exact hS n name hs

/-- An accepted text has legal symbols for static variables, if they are read as they are written. -/
theorem legal_of_assemble (h : Mirrors L S τ ls ls' ps)
    (hS : ∀ n name, S n name → 46 ∈ name ∧ 47 ∉ name ∧ name.Unbroken) (hl : ∀ l ∈ ls, l.Legal) {p : Program}
    (hp : assemble (render ls') = .ok p) : ∀ l ∈ ls', l.Legal := by
  have hfeed : ∀ l ∈ ls', Text.lineFeed ∉ l.toText := by
    intro l hm
    obtain hlegal | ⟨n, name, hs, rfl⟩ := h.legal_or_static hl l hm
    · exact lineFeed_not_mem hlegal
    · have hname := Text.lineFeed_not_mem_unbroken (hS n name hs).2.2
      simp only [load, Line.toText, Instruction.toText, Operand.toText, List.mem_cons, not_or]
      exact ⟨by decide, hname⟩
  intro l hm
  obtain hlegal | ⟨n, name, hs, rfl⟩ := h.legal_or_static hl l hm
  · exact hlegal
  · obtain ⟨hdot, hslash, hname⟩ := hS n name hs
    refine isSymbol_of_assemble hp ?_ hdot hslash hname
    rw [lines_of_lineFeed_not_mem hfeed]
    exact List.mem_append_left _ (List.mem_map_of_mem hm)

theorem dot_not_mem_label (h : Mirrors L S τ ls ls' ps) {name : Text} (hname : .label name ∈ ls') : 46 ∉ name := by
  induction h with
  | nil => cases hname
  | forget _ ih => exact ih hname
  | label hdot _ ih =>
    rw [List.mem_cons, Line.label.injEq] at hname
    obtain rfl | hname := hname
    · exact hdot
    · exact ih hname
  | remark _ _ ih | register _ _ _ _ ih | constant _ _ ih | target _ _ ih | static _ _ ih | assign _ _ ih
  | jump _ _ _ _ _ ih =>
    rw [List.mem_cons] at hname
    exact ih (hname.resolve_left (by simp [load, Template.assign, Template.jump]))

theorem loaded (h : Mirrors L S τ ls ls' ps) {name : Text} (hname : load (.symbol name) ∈ ls') :
    (∃ w, initialTable[name]? = some w) ∨ L name ∨ ∃ n, S n name := by
  induction h with
  | nil => cases hname
  | forget _ ih => exact ih hname
  | register w hw _ _ ih =>
    simp only [load, List.mem_cons, Line.instruction.injEq, Instruction.load.injEq, Operand.symbol.injEq] at hname
    obtain rfl | hname := hname
    · exact .inl ⟨w, hw⟩
    · exact ih hname
  | target hL _ ih =>
    simp only [load, List.mem_cons, Line.instruction.injEq, Instruction.load.injEq, Operand.symbol.injEq] at hname
    obtain rfl | hname := hname
    · exact .inr (.inl hL)
    · exact ih hname
  | static hs _ ih =>
    simp only [load, List.mem_cons, Line.instruction.injEq, Instruction.load.injEq, Operand.symbol.injEq] at hname
    obtain rfl | hname := hname
    · exact .inr (.inr ⟨_, hs⟩)
    · exact ih hname
  | remark _ _ ih | label _ _ ih | constant _ _ ih | assign _ _ ih | jump _ _ _ _ _ ih =>
    rw [List.mem_cons] at hname
    exact ih (hname.resolve_left (by simp [load, Template.assign, Template.jump]))

end

/-- The variables of an assembled text are the symbols of the static cells that it loads. -/
theorem allocated {L : Text → Prop} {S : Nat → Text → Prop} {τ : Ties} {ls ls' : List Line} {ps : List Purpose}
    (h : Mirrors L S τ ls ls' ps) (hL : ∀ name, L name → .label name ∈ ls') (hS : ∀ n name, S n name → 46 ∈ name)
    (hl : ∀ l ∈ ls', l.Legal) {p : Program} (hp : assemble (render ls') = .ok p) :
    ∃ bound next vs, Allocated bound p.symbols next vs ∧
      ∀ name, name ∈ vs ↔ (∃ n, S n name) ∧ load (.symbol name) ∈ ls' := by
  obtain ⟨bound, next, vs, hbound, hvs, -, hmem⟩ := bound_of_assemble hl hp
  refine ⟨bound, next, vs, hvs, fun name => ?_⟩
  rw [hmem, mem_instructions_iff]
  constructor
  · rintro ⟨hload, hnone⟩
    obtain ⟨w, hw⟩ | hlabel | hstatic := h.loaded hload
    · rw [bindLabels_extends hbound name w hw] at hnone
      cases hnone
    · obtain ⟨address, haddress⟩ := bindLabels_declared hl hbound (hL name hlabel)
      rw [haddress] at hnone
      cases hnone
    · exact ⟨hstatic, hload⟩
  · rintro ⟨⟨n, hstatic⟩, hload⟩
    have hdot := hS n name hstatic
    exact ⟨hload, bindLabels_unbound hl hbound (initialTable_of_dot hdot) fun hlabel => h.dot_not_mem_label hlabel hdot⟩

end Mirrors

/-! ## Requests -/

namespace Generator

/-- The slot and the symbol of a static cell that the current file has claimed. -/
def Cells (g : Generator) (slot : Nat) (symbol : Text) : Prop :=
  ∃ index < g.staticUsed, slot = Segment.staticBase + g.staticFirst + index ∧ symbol = staticSymbol g.fileName index

theorem claimEntry_symbols {g : Generator} (hg : g.usesSymbols = true) (segment : Segment) (index : Nat) :
    g.claimEntry segment index = .ok g := by
  cases segment <;> simp [claimEntry, claim, hg]

theorem mem_emission {g : Generator} {plan : Plan} {l : Line} (r : Request) (h : l ∈ plan.lines) :
    l ∈ g.emission r plan := by
  unfold emission
  split
  · exact List.mem_cons_of_mem _ h
  · exact h

theorem mirrors_emission {g g' : Generator} {plan plan' : Plan} {L : Text → Prop} {S : Nat → Text → Prop}
    {ps : List Purpose} (hannotate : g.annotate = g'.annotate) (r : Request)
    (h : Mirrors L S {} plan.lines plan'.lines ps) : Mirrors L S {} (g.emission r plan) (g'.emission r plan') ps := by
  unfold emission
  rw [hannotate]
  split
  · exact .remark _ h
  · exact h

theorem labels_code {op : Operator} (h : op.isComparison = true) (k : Nat) :
    .label (falseLabel k) ∈ op.code k ∧ .label (continueLabel k) ∈ op.code k := by
  cases op with
  | eq | gt | lt => simp [Operator.code, Template.compare]
  | _ => cases h

theorem mirrors_operator {L : Text → Prop} {S : Nat → Text → Prop} (op : Operator) {k : Nat}
    (hL : ∀ name, .label name ∈ op.code k → L name) :
    Mirrors L S {} (op.code k) (op.code k) (Request.operator op.name).toCommand.purposes := by
  have hpurposes : (Request.operator op.name).toCommand.purposes = op.purposes := by
    simp [Request.toCommand, Command.purposes, Operator.ofName?_name]
  have hlabels : op.isComparison = true → L (falseLabel k) ∧ L (continueLabel k) :=
    fun hop => ⟨hL _ (labels_code hop k).1, hL _ (labels_code hop k).2⟩
  have hcode : Mirrors L S {} (op.code k ++ []) (op.code k ++ []) (op.purposes ++ []) :=
    Mirrors.operator op hlabels (.nil {})
  rw [hpurposes]
  simpa only [List.append_nil] using hcode

theorem mirrors_access {L : Text → Prop} {S : Nat → Text → Prop} {g g' : Generator} {r : Request} {pops : Bool}
    {segment : Segment} {index : Nat} (h : Asks r pops segment index) (hg : g.usesSymbols = false)
    (hg' : g'.usesSymbols = true) (hstatic : segment = .statics →
      S (Segment.staticBase + g.staticFirst + index) (staticSymbol g'.fileName index)) :
    Mirrors L S {} (g.entryCode pops segment index) (g'.entryCode pops segment index) r.toCommand.purposes := by
  obtain ⟨rfl, hrange, hc⟩ := h
  have hpurposes : (Request.access (if pops then .pop else .push) segment.name index).toCommand.purposes =
      Purpose.entryCode pops segment := by
    cases pops <;> simp [Request.toCommand, Command.ofParts, Command.purposes, Segment.ofName?_name]
  have hcode : Mirrors L S {} (g.entryCode pops segment index ++ []) (g'.entryCode pops segment index ++ [])
      (Purpose.entryCode pops segment ++ []) := Mirrors.entryCode hg hg' hrange hstatic hc (.nil {})
  rw [hpurposes]
  simpa only [List.append_nil] using hcode

/-- Whether two generators differ only in how they name static cells: the first with slots, the second with symbols. -/
structure Twin (g g' : Generator) : Prop where
  slots : g.staticSymbols = false
  symbols : g'.staticSymbols = true
  annotate : g.annotate = g'.annotate
  fileName : g.fileName = g'.fileName
  comparisons : g.comparisons = g'.comparisons

section
variable {g g' g₁ : Generator} (h : Twin g g')
include h

theorem twin_written (hg₁ : g₁ = { g with staticUsed := g₁.staticUsed }) {plan plan' : Plan}
    (hplan : plan'.comparison = plan.comparison) : Twin (g₁.written plan) (g'.written plan') := by
  obtain ⟨hslots, hsymbols, hannotate, hname, hcount⟩ := h
  rw [hg₁]
  unfold written
  rw [hplan]
  split
  · exact ⟨hslots, hsymbols, hannotate, hname, congrArg (· + 1) hcount⟩
  · exact ⟨hslots, hsymbols, hannotate, hname, hcount⟩

theorem mirrors_lower (hname : g.fileName ≠ []) {r : Request} {plan : Plan} (hl : g.lower r = .ok (plan, g₁)) :
    ∃ plan', g'.lower r = .ok (plan', g') ∧ Twin (g₁.written plan) (g'.written plan') ∧
      Mirrors (fun name => .label name ∈ g'.emission r plan') g₁.Cells {} (g₁.emission r plan) (g'.emission r plan')
        r.toCommand.purposes := by
  have hfields := lower_fields hl
  have hannotate : g₁.annotate = g'.annotate := by rw [hfields, ← h.annotate]
  have hg' : g'.usesSymbols = true := by
    rw [h.fileName] at hname
    simp [usesSymbols, h.symbols, hname]
  obtain ⟨op, rfl, rfl, -⟩ | ⟨pops, segment, index, hasks, hclaim, rfl⟩ := lower_cases hl
  · refine ⟨⟨op.code g'.comparisons, op.isComparison⟩, ?_, twin_written h hfields rfl, mirrors_emission hannotate _ ?_⟩
    · simp only [lower, Operator.ofName?_name]
    · rw [h.comparisons]
      exact mirrors_operator op fun name hname => mem_emission _ hname
  · have hname : g₁.fileName = g'.fileName := by rw [hfields, ← h.fileName]
    have hstatic : segment = .statics →
        g₁.Cells (Segment.staticBase + g₁.staticFirst + index) (staticSymbol g'.fileName index) := by
      intro hs
      obtain ⟨hne, -⟩ | ⟨-, -, hg₁⟩ := claimEntry_ok h.slots hclaim
      · exact absurd hs hne
      · refine ⟨index, ?_, rfl, by rw [hname]⟩
        rw [hg₁]
        exact Nat.lt_of_lt_of_le (Nat.lt_succ_self index) (Nat.le_max_right _ _)
    have hsymbols := usesSymbols_eq_false (staticSymbols_lower h.slots hl)
    exact ⟨_, lower_of_asks hasks (claimEntry_symbols hg' segment index), twin_written h hfields rfl,
      mirrors_emission hannotate _ (mirrors_access hasks hsymbols hg' hstatic)⟩

end

end Generator

end HackStack
