import HackStack.Proofs.Asm.Resolution
import Mathlib.Data.List.Nodup

/-!
# Variables

The second pass gives every symbol that the first one has not bound the next free address. `Allocated` keeps the
symbols that have got one so far, in this order, so the address of a variable is its place in the list. Whether a
written text is accepted, and where its labels are, depends on the first pass alone.
-/

namespace HackStack.Asm

/-! ## Entries of written lines -/

def numberedLines : Nat → List Line → List Entry
  | _, [] => []
  | n, .remark _ :: ls => numberedLines (n + 1) ls
  | n, .label name :: ls => ⟨n, (Line.label name).toText⟩ :: numberedLines (n + 1) ls
  | n, .instruction i :: ls => ⟨n, i.toText⟩ :: numberedLines (n + 1) ls

theorem numberedFrom_done (content : Text → Text) : ∀ (lines : List Text) (first : Nat) (done : List Entry),
    Listing.numberedFrom content first done lines = done.reverse ++ Listing.numberedFrom content first [] lines
  | [], _, _ => by simp [Listing.numberedFrom]
  | line :: rest, first, done => by
    rw [Listing.numberedFrom, Listing.numberedFrom, numberedFrom_done, numberedFrom_done content rest _ (ite _ _ _)]
    split <;> simp

theorem numberedFrom_lines : ∀ {ls : List Line} (n : Nat), (∀ l ∈ ls, l.Legal) →
    Listing.numberedFrom content n [] (ls.map Line.toText ++ [[]]) = numberedLines n ls
  | [], n, _ => by
    have hnil : content [] = [] := content_graphic rfl
    simp [Listing.numberedFrom, numberedLines, hnil]
  | l :: ls, n, h => by
    rw [List.forall_mem_cons] at h
    have ih := numberedFrom_lines (n + 1) h.2
    rw [List.map_cons, List.cons_append, Listing.numberedFrom, numberedFrom_done, ih]
    cases l with
    | remark text => simp [content_remark, numberedLines]
    | label name =>
      rw [content_line h.1 (by simp)]
      simp [numberedLines, Line.toText]
    | instruction i =>
      rw [content_line h.1 (by simp)]
      simp [numberedLines, Line.toText, instructionText_ne_nil]

theorem numbered_render {ls : List Line} (h : ∀ l ∈ ls, l.Legal) :
    Listing.numbered content (render ls) = numberedLines 1 ls := by
  unfold Listing.numbered
  rw [lines_render h, numberedFrom_lines 1 h]

theorem texts_numberedLines : ∀ (ls : List Line) (n : Nat), (numberedLines n ls).map Entry.text = codeTexts ls
  | [], _ => rfl
  | .remark _ :: ls, n => texts_numberedLines ls (n + 1)
  | .label _ :: ls, n => congrArg _ (texts_numberedLines ls (n + 1))
  | .instruction _ :: ls, n => congrArg _ (texts_numberedLines ls (n + 1))

theorem mem_instructions_iff {i : Instruction} {ls : List Line} : i ∈ instructions ls ↔ .instruction i ∈ ls := by
  refine ⟨mem_instructions, fun h => ?_⟩
  induction ls with
  | nil => cases h
  | cons l ls ih =>
    obtain rfl | hrest := List.mem_cons.mp h
    · exact List.mem_cons_self
    · cases l with
      | instruction j => exact List.mem_cons_of_mem _ (ih hrest)
      | _ => exact ih hrest

theorem ofText_numberedLines {ls : List Line} (h : ∀ l ∈ ls, l.Legal) (n : Nat) :
    ((numberedLines n ls).filter fun e => !isLabel e.text).map (fun e => Instruction.ofText e.text) =
      (instructions ls).map Except.ok :=
  map_ofText_code h (texts_numberedLines ls n)

/-! ## The first pass -/

theorem bindLabels_unbound : ∀ {ls : List Line} {n address : Nat} {table table' : SymbolTable} {name : Text},
    (∀ l ∈ ls, l.Legal) → bindLabels table address (numberedLines n ls) = .ok table' → table[name]? = none →
    .label name ∉ ls → table'[name]? = none
  | [], _, _, _, _, _, _, h, hnone, _ => by
    simp only [numberedLines, bindLabels, Except.ok.injEq] at h
    exact h ▸ hnone
  | .remark _ :: ls, _, _, _, _, _, hl, h, hnone, hlabel =>
    bindLabels_unbound (List.forall_mem_cons.mp hl).2 h hnone fun hm => hlabel (List.mem_cons_of_mem _ hm)
  | .label other :: ls, n, address, table, table', name, hl, h, hnone, hlabel => by
    rw [List.forall_mem_cons] at hl
    simp only [List.mem_cons, Line.label.injEq, not_or] at hlabel
    rw [numberedLines, bindLabels, if_pos (isLabel_label other)] at h
    cases hb : bindLabel table address (Line.label other).toText with
    | error p => rw [hb] at h; cases h
    | ok bound =>
      rw [hb] at h
      obtain ⟨other', hname, -, -, rfl⟩ := bindLabel_ok hb
      rw [labelName_label hl.1, Except.ok.injEq] at hname
      subst hname
      refine bindLabels_unbound hl.2 h ?_ hlabel.2
      rw [getElem?_insert, if_neg (Ne.symm hlabel.1), hnone]
  | .instruction i :: ls, n, address, table, table', name, hl, h, hnone, hlabel => by
    rw [numberedLines, bindLabels, if_neg (by simp [isLabel_instruction])] at h
    exact bindLabels_unbound (List.forall_mem_cons.mp hl).2 h hnone fun hm => hlabel (List.mem_cons_of_mem _ hm)

theorem bindLabels_declared : ∀ {ls : List Line} {n address : Nat} {table table' : SymbolTable} {name : Text},
    (∀ l ∈ ls, l.Legal) → bindLabels table address (numberedLines n ls) = .ok table' → .label name ∈ ls →
    ∃ bound, table'[name]? = some bound
  | [], _, _, _, _, _, _, _, hlabel => by cases hlabel
  | .remark _ :: ls, _, _, _, _, _, hl, h, hlabel =>
    bindLabels_declared (List.forall_mem_cons.mp hl).2 h (by simpa using hlabel)
  | .label other :: ls, n, address, table, table', name, hl, h, hlabel => by
    rw [List.forall_mem_cons] at hl
    rw [numberedLines, bindLabels, if_pos (isLabel_label other)] at h
    cases hb : bindLabel table address (Line.label other).toText with
    | error p => rw [hb] at h; cases h
    | ok bound =>
      rw [hb] at h
      obtain ⟨other', hname, -, -, rfl⟩ := bindLabel_ok hb
      rw [labelName_label hl.1, Except.ok.injEq] at hname
      subst hname
      rw [List.mem_cons, Line.label.injEq] at hlabel
      obtain rfl | hlabel := hlabel
      · exact ⟨_, bindLabels_extends h name _ (by rw [getElem?_insert, if_pos rfl])⟩
      · exact bindLabels_declared hl.2 h hlabel
  | .instruction i :: ls, n, address, table, table', name, hl, h, hlabel => by
    rw [numberedLines, bindLabels, if_neg (by simp [isLabel_instruction])] at h
    exact bindLabels_declared (List.forall_mem_cons.mp hl).2 h (by simpa using hlabel)

/-- Lines that the first pass cannot tell apart: all but the instructions are the same. -/
def SameLabels : Line → Line → Prop
  | .instruction _, .instruction _ => True
  | l, l' => l = l'

theorem bindLabels_congr {ls ls' : List Line} (h : List.Forall₂ SameLabels ls ls') :
    ∀ (n address : Nat) (table : SymbolTable),
      bindLabels table address (numberedLines n ls) = bindLabels table address (numberedLines n ls') := by
  induction h with
  | nil =>
    intro n address table
    rfl
  | @cons l l' ls ls' hl _ ih =>
    intro n address table
    cases l with
    | remark _ =>
      obtain rfl := hl
      exact ih (n + 1) address table
    | label name =>
      obtain rfl := hl
      rw [numberedLines, numberedLines, bindLabels, bindLabels]
      simp only [isLabel_label, if_true]
      cases bindLabel table address (Line.label name).toText with
      | error p => rfl
      | ok bound => exact ih (n + 1) address bound
    | instruction i =>
      cases l' with
      | remark _ | label _ => cases hl
      | instruction i' =>
        rw [numberedLines, numberedLines, bindLabels, bindLabels]
        simp only [isLabel_instruction, Bool.false_eq_true, if_false]
        exact ih (n + 1) (address + 1) table

/-! ## The second pass -/

/-- Whether a table is a bound one with variables added in order, up to the next free address. -/
structure Allocated (bound table : SymbolTable) (next : UInt16) (vs : List Text) : Prop where
  nodup : vs.Nodup
  unbound : ∀ name ∈ vs, bound[name]? = none
  next : next = firstVariable + vs.length.toUInt16
  given : ∀ name ∈ vs, table[name]? = some (firstVariable + (vs.idxOf name).toUInt16)
  other : ∀ name, name ∉ vs → table[name]? = bound[name]?

namespace Allocated

theorem start (bound : SymbolTable) : Allocated bound bound firstVariable [] where
  nodup := .nil
  unbound := by simp
  next := rfl
  given := by simp
  other := fun _ _ => rfl

section
variable {bound table : SymbolTable} {next : UInt16} {vs : List Text} (h : Allocated bound table next vs)
include h

theorem add {name : Text} (hn : table[name]? = none) :
    Allocated bound (table.insert name next) (next + 1) (vs ++ [name]) := by
  have hnew : name ∉ vs := by
    intro hm
    rw [h.given name hm] at hn
    cases hn
  refine ⟨?_, ?_, ?_, ?_, ?_⟩
  · rw [List.nodup_append]
    refine ⟨h.nodup, List.nodup_singleton name, ?_⟩
    intro a ha b hb
    rw [List.mem_singleton.mp hb]
    rintro rfl
    exact hnew ha
  · intro other hm
    obtain hm | hm := List.mem_append.mp hm
    · exact h.unbound other hm
    · rw [List.mem_singleton.mp hm, ← h.other name hnew, hn]
  · have hlength : (vs.length + 1).toUInt16 = vs.length.toUInt16 + 1 := by simp [Nat.toUInt16]
    rw [h.next, List.length_append, List.length_singleton, hlength, UInt16.add_assoc]
  · intro other hm
    rw [getElem?_insert]
    obtain hm | hm := List.mem_append.mp hm
    · have hne : name ≠ other := by rintro rfl; exact hnew hm
      rw [if_neg hne, h.given other hm, List.idxOf_append_of_mem hm]
    · rw [List.mem_singleton.mp hm, if_pos rfl, List.idxOf_append_of_notMem hnew, List.idxOf_cons_self, Nat.add_zero,
        h.next]
  · intro other hm
    simp only [List.mem_append, List.mem_singleton, not_or] at hm
    rw [getElem?_insert, if_neg (Ne.symm hm.2), h.other other hm.1]

theorem mem_of_unbound {name : Text} (hb : bound[name]? = none) {address : UInt16} (ht : table[name]? = some address) :
    name ∈ vs := by
  by_contra hm
  rw [h.other name hm, hb] at ht
  cases ht

end

theorem resolve {bound : SymbolTable} {e : Encoding} {vs : List Text} (h : Allocated bound e.table e.next vs)
    (name : Text) : Allocated bound (e.resolve name).2.table (e.resolve name).2.next
      (if bound[name]? = none ∧ name ∉ vs then vs ++ [name] else vs) := by
  unfold Encoding.resolve
  cases hn : e.table[name]? with
  | some address =>
    rw [if_neg]
    · exact h
    · intro hnew
      exact hnew.2 (h.mem_of_unbound hnew.1 hn)
  | none =>
    have hadd := h.add hn
    have hnew : name ∉ vs := by
      intro hm
      rw [h.given name hm] at hn
      cases hn
    rw [if_pos ⟨hadd.unbound name (by simp), hnew⟩]
    exact hadd

theorem encode {bound : SymbolTable} {e : Encoding} {vs : List Text} (h : Allocated bound e.table e.next vs)
    (i : Instruction) :
    ∃ vs', Allocated bound (e.encode i).2.table (e.encode i).2.next vs' ∧
      ∀ name, name ∈ vs' ↔ name ∈ vs ∨ i = .load (.symbol name) ∧ bound[name]? = none := by
  match i with
  | .load (.constant n) => exact ⟨vs, h, by simp⟩
  | .compute dest comp jump => exact ⟨vs, h, by simp⟩
  | .load (.symbol name) =>
    refine ⟨_, h.resolve name, fun other => ?_⟩
    rw [Instruction.load.injEq, Operand.symbol.injEq]
    by_cases hb : bound[name]? = none ∧ name ∉ vs
    · rw [if_pos hb, List.mem_append, List.mem_singleton]
      refine or_congr_right ⟨?_, fun ho => ho.1.symm⟩
      rintro rfl
      exact ⟨rfl, hb.1⟩
    · rw [if_neg hb]
      refine ⟨.inl, ?_⟩
      rintro (hm | ⟨rfl, hnone⟩)
      · exact hm
      · by_contra hm
        exact hb ⟨hnone, hm⟩

theorem run {bound : SymbolTable} : ∀ {entries : List Entry} {is : List Instruction} {e e' : Encoding} {vs : List Text},
    Allocated bound e.table e.next vs → e.run entries = .ok e' →
    entries.map (fun x => Instruction.ofText x.text) = is.map Except.ok →
    ∃ vs', Allocated bound e'.table e'.next vs' ∧
      ∀ name, name ∈ vs' ↔ name ∈ vs ∨ .load (.symbol name) ∈ is ∧ bound[name]? = none
  | [], is, e, e', vs, h, hrun, his => by
    simp only [Encoding.run, Except.ok.injEq] at hrun
    subst hrun
    have hnil : is = [] := by simpa using his.symm
    exact ⟨vs, h, by simp [hnil]⟩
  | entry :: rest, is, e, e', vs, h, hrun, his => by
    cases is with
    | nil => cases his
    | cons i is =>
      rw [List.map_cons, List.map_cons, List.cons.injEq] at his
      rw [Encoding.run, his.1] at hrun
      obtain ⟨vs₁, h₁, hmem₁⟩ := h.encode i
      obtain ⟨vs₂, h₂, hmem₂⟩ := run (e := (e.encode i).2.push (e.encode i).1 entry.line) h₁ hrun his.2
      refine ⟨vs₂, h₂, fun name => ?_⟩
      rw [hmem₂, hmem₁, List.mem_cons, or_assoc, ← or_and_right, eq_comm (a := i)]

end Allocated

theorem run_legal : ∀ {entries : List Entry} {is : List Instruction} (e : Encoding),
    entries.map (fun x => Instruction.ofText x.text) = is.map Except.ok → ∃ e', e.run entries = .ok e'
  | [], _, e, _ => ⟨e, rfl⟩
  | entry :: rest, is, e, his => by
    cases is with
    | nil => cases his
    | cons i is =>
      rw [List.map_cons, List.map_cons, List.cons.injEq] at his
      rw [Encoding.run, his.1]
      exact run_legal _ his.2

/-! ## Whole programs -/

theorem mem_numberedFrom {content : Text → Text} {line : Text} (hne : content line ≠ []) :
    ∀ {lines : List Text} (n : Nat), line ∈ lines →
      ∃ e ∈ Listing.numberedFrom content n [] lines, e.text = content line
  | other :: lines, n, h => by
    rw [Listing.numberedFrom, numberedFrom_done]
    obtain rfl | h := List.mem_cons.mp h
    · exact ⟨⟨n, content line⟩, by simp [hne], rfl⟩
    · obtain ⟨e, he, htext⟩ := mem_numberedFrom hne (n + 1) h
      exact ⟨e, List.mem_append_right _ he, htext⟩

/-- Every line of an accepted text that is neither empty nor a label is read as an instruction. -/
theorem ofText_of_assemble {source line : Text} {p : Program} (h : assemble source = .ok p)
    (hline : line ∈ Text.lines source) (hne : content line ≠ []) (hlabel : isLabel (content line) = false) :
    ∃ i, Instruction.ofText (content line) = .ok i := by
  obtain ⟨e, he, htext⟩ := mem_numberedFrom hne 1 hline
  obtain ⟨bound, code, -, hr, -⟩ := assemble_ok h
  obtain ⟨-, is, hread, -⟩ := run_words hr
  have hmem : e ∈ (Listing.numbered content source).filter fun e => !isLabel e.text := by
    rw [List.mem_filter, htext, hlabel]
    exact ⟨he, rfl⟩
  have hread := hread ▸ List.mem_map_of_mem hmem
  obtain ⟨i, -, hi⟩ := List.mem_map.mp hread
  exact ⟨i, by rw [← htext, hi]⟩

/-- A symbol with a dot that a line of an accepted text loads, if it is read as it is written. -/
theorem isSymbol_of_assemble {source name : Text} {p : Program} (h : assemble source = .ok p)
    (hline : (Instruction.load (.symbol name)).toText ∈ Text.lines source) (hdot : 46 ∈ name) (hslash : 47 ∉ name)
    (hname : name.Unbroken) : isSymbol name = true := by
  have htext : (Instruction.load (.symbol name)).toText = 64 :: name := rfl
  have hcontent : content (64 :: name) = 64 :: name := by
    refine content_unbroken (by simpa using hslash) ⟨?_, hname⟩
    exact Text.blankWidth_graphic (by decide) name
  rw [htext] at hline
  obtain ⟨i, hi⟩ := ofText_of_assemble h hline (by simp [hcontent]) (by rw [hcontent]; rfl)
  rw [hcontent, Instruction.ofText] at hi
  cases ho : Operand.ofText name with
  | error problem => rw [ho] at hi; cases hi
  | ok operand =>
    have hdigits : Text.readNat? name = none := by
      have hall : name.all Text.isDigit = false := List.all_eq_false.mpr ⟨46, hdot, by decide⟩
      simp [Text.readNat?, hall]
    unfold Operand.ofText at ho
    split at ho
    · cases ho
    · rw [hdigits] at ho
      split at ho
      · cases ho
      · split at ho
        · assumption
        · cases ho

section
variable {ls : List Line} (hl : ∀ l ∈ ls, l.Legal)
include hl

theorem assemble_of_bound {bound : SymbolTable} (hb : bindLabels initialTable 0 (numberedLines 1 ls) = .ok bound) :
    ∃ p, assemble (render ls) = .ok p := by
  obtain ⟨code, hcode⟩ := run_legal ⟨bound, firstVariable, #[], #[]⟩ (ofText_numberedLines hl 1)
  refine ⟨⟨code.words, code.lines, code.table⟩, ?_⟩
  unfold assemble
  simp only [numbered_render hl, bind, Except.bind, hb, hcode, pure, Except.pure]

/-- The symbols of an accepted text: those that the first pass has bound, and all others that are loaded. -/
theorem bound_of_assemble {p : Program} (h : assemble (render ls) = .ok p) :
    ∃ bound next vs, bindLabels initialTable 0 (numberedLines 1 ls) = .ok bound ∧
      Allocated bound p.symbols next vs ∧ bound.Extends p.symbols ∧
      ∀ name, name ∈ vs ↔ Instruction.load (.symbol name) ∈ instructions ls ∧ bound[name]? = none := by
  obtain ⟨bound, code, hb, hr, rfl⟩ := assemble_ok h
  rw [numbered_render hl] at hb hr
  obtain ⟨vs, hvs, hmem⟩ := (Allocated.start bound).run (e := ⟨bound, firstVariable, #[], #[]⟩) hr
    (ofText_numberedLines hl 1)
  exact ⟨bound, code.next, vs, hb, hvs, (run_words hr).1, by simpa using hmem⟩

end

theorem assemble_congr {ls ls' : List Line} (h : List.Forall₂ SameLabels ls ls') (hl : ∀ l ∈ ls, l.Legal)
    (hl' : ∀ l ∈ ls', l.Legal) : (∃ p, assemble (render ls) = .ok p) ↔ ∃ p, assemble (render ls') = .ok p := by
  have hbind := bindLabels_congr h 1 0 initialTable
  constructor
  · rintro ⟨p, hp⟩
    obtain ⟨bound, _, _, hb, -⟩ := bound_of_assemble hl hp
    exact assemble_of_bound hl' (hbind.symm.trans hb)
  · rintro ⟨p, hp⟩
    obtain ⟨bound, _, _, hb, -⟩ := bound_of_assemble hl' hp
    exact assemble_of_bound hl (hbind.trans hb)

/-! ## Addresses of variables -/

section
variable {p : Program} {bound : SymbolTable} {next : UInt16} {vs : List Text} (h : Allocated bound p.symbols next vs)
include h

theorem toNat_variable (hcount : vs.length ≤ 65520) {name : Text} (hm : name ∈ vs) :
    (p.symbols.address name).toNat = 16 + vs.idxOf name := by
  have hlt : vs.idxOf name < vs.length := List.idxOf_lt_length_of_mem hm
  unfold SymbolTable.address
  rw [h.given name hm, Option.getD_some, UInt16.toNat_add, toNat_toUInt16 (by omega)]
  have hfirst : firstVariable.toNat = 16 := rfl
  omega

/-- The addresses wrap around at the end of the memory, so as many variables as there are words still have addresses
of their own. -/
theorem variable_injective (hcount : vs.length ≤ 65536) {name name' : Text} (hm : name ∈ vs) (hm' : name' ∈ vs) :
    p.symbols.address name = p.symbols.address name' ↔ name = name' := by
  constructor
  · intro heq
    have hlt : vs.idxOf name < vs.length := List.idxOf_lt_length_of_mem hm
    have hlt' : vs.idxOf name' < vs.length := List.idxOf_lt_length_of_mem hm'
    unfold SymbolTable.address at heq
    rw [h.given name hm, h.given name' hm', Option.getD_some, Option.getD_some, UInt16.add_right_inj] at heq
    have hidx := congrArg UInt16.toNat heq
    rw [toNat_toUInt16 (by omega), toNat_toUInt16 (by omega)] at hidx
    exact (List.idxOf_inj hm).mp hidx
  · rintro rfl
    rfl

end

end HackStack.Asm
