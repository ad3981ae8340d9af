import HackStack.Proofs.Translation.Labels
import HackStack.Proofs.Translation.Symbols

/-!
# Lines that are written for a request

A generator writes legal lines only. Apart from the remark they compute, or load a predefined symbol, a constant, a
label of the next pair or the symbol of a static entry, and they declare this pair if the request is a comparison.
-/

namespace HackStack

open Asm Template

/-- Whether a line only computes, or loads a predefined symbol. -/
def Asm.Line.isPlain : Line → Bool
  | .instruction (.compute dest _ _) => decide dest.Nodup
  | .instruction (.load (.symbol name)) => (predefined.map Prod.fst).contains name
  | _ => false

theorem Asm.Line.legal_of_isPlain {l : Line} (h : l.isPlain = true) : l.Legal := by
  have hpredefined : ∀ name ∈ predefined.map Prod.fst, isSymbol name = true := by decide
  match l, h with
  | .instruction (.compute dest _ _), h =>
    have hdest : dest.Nodup := of_decide_eq_true h
    exact hdest
  | .instruction (.load (.symbol name)), h => exact hpredefined name (List.contains_iff_mem.mp h)

namespace Generator

def pair (g : Generator) (r : Request) : List Text :=
  if r.compares then [falseLabel g.comparisons, continueLabel g.comparisons] else []

theorem isSymbol_of_mem_pair {g : Generator} {r : Request} {name : Text} (h : name ∈ g.pair r) :
    isSymbol name = true := by
  unfold pair at h
  split at h
  · simp only [List.mem_cons, List.not_mem_nil, or_false] at h
    obtain rfl | rfl := h
    · exact isSymbol_falseLabel _
    · exact isSymbol_continueLabel _
  · cases h

/-- The lines that a generator may write for a request. -/
inductive Writes (g : Generator) (r : Request) : Line → Prop
  | remark : Writes g r (.remark r.toText)
  | plain {l : Line} : l.isPlain = true → Writes g r l
  | constant {n : Nat} : n ≤ maxConstant → Writes g r (load (.constant n))
  | target {name : Text} : name ∈ g.pair r → Writes g r (load (.symbol name))
  | label {name : Text} : name ∈ g.pair r → Writes g r (.label name)
  | static {kind : Kind} {index : Nat} : g.usesSymbols = true → r = .access kind Segment.statics.name index →
      Writes g r (load (.symbol (staticSymbol g.fileName index)))

theorem compares_operator (op : Operator) : (Request.operator op.name).compares = op.isComparison := by
  cases op <;> decide

theorem filter_operatorCode (op : Operator) (k : Nat) : ((op.code k).filter fun l => !l.isPlain) =
    if op.isComparison then
      [load (.symbol (falseLabel k)), load (.symbol (continueLabel k)), .label (falseLabel k), .label (continueLabel k)]
    else [] := by
  cases op <;> rfl

theorem writes_operator {g : Generator} {op : Operator} {l : Line}
    (hl : l ∈ (op.code g.comparisons).filter fun l => !l.isPlain) : Writes g (.operator op.name) l := by
  rw [filter_operatorCode] at hl
  by_cases hop : op.isComparison = true
  · have hpair : g.pair (.operator op.name) = [falseLabel g.comparisons, continueLabel g.comparisons] := by
      simp [pair, compares_operator, hop]
    rw [if_pos hop] at hl
    simp only [List.mem_cons, List.not_mem_nil, or_false] at hl
    obtain rfl | rfl | rfl | rfl := hl
    · exact .target (by simp [hpair])
    · exact .target (by simp [hpair])
    · exact .label (by simp [hpair])
    · exact .label (by simp [hpair])
  · rw [if_neg hop] at hl
    cases hl

def entryOperand (g : Generator) (segment : Segment) (index : Nat) : Operand :=
  match segment with
  | .statics => g.staticOperand index
  | _ => .constant index

theorem filter_entryCode (g : Generator) (pops : Bool) (segment : Segment) (index : Nat) :
    ((g.entryCode pops segment index).filter fun l => !l.isPlain).Sublist [load (g.entryOperand segment index)] := by
  cases segment with
  | constant =>
    cases pops with
    | true => exact List.nil_sublist _
    | false => exact List.Sublist.refl _
  | locals | arguments | this | that | temp => cases pops <;> exact List.Sublist.refl _
  | pointer =>
    by_cases h : index = 0
    · subst h
      cases pops <;> exact List.nil_sublist _
    · have hregister : pointerRegister index = .symbol (ascii "THAT") := by simp [pointerRegister, h]
      cases pops <;> simp only [entryCode, loadValue, loadAddress, hregister] <;> exact List.nil_sublist _
  | statics =>
    -- How the cell is named depends on the generator, so the first line is not evaluated.
    have hfirst : ∀ ls : List Line, (ls.filter fun l => !l.isPlain) = [] →
        ((load (g.staticOperand index) :: ls).filter fun l => !l.isPlain).Sublist [load (g.staticOperand index)] := by
      intro ls hls
      rw [List.filter_cons, hls]
      split
      · exact List.Sublist.refl _
      · exact List.nil_sublist _
    cases pops <;> exact hfirst _ rfl

theorem le_maxConstant {segment : Segment} {index : Nat} (h : index < segment.size) : index ≤ maxConstant := by
  have hsize : segment.size ≤ maxConstant + 1 := by cases segment <;> decide
  omega

theorem writes_entry {g g' : Generator} {r : Request} {pops : Bool} {segment : Segment} {index : Nat}
    (hasks : Asks r pops segment index) (hclaim : g.claimEntry segment index = .ok g') :
    Writes g r (load (g'.entryOperand segment index)) := by
  by_cases hs : segment = .statics
  · subst hs
    simp only [entryOperand, staticOperand]
    obtain ⟨hsymbols, rfl⟩ | ⟨-, hslots, hslot, rfl⟩ := claimEntry_cases hclaim
    · rw [if_pos (hsymbols rfl)]
      exact .static (hsymbols rfl) hasks.request
    · have hslots' : ({ g with staticUsed := max g.staticUsed (index + 1) } : Generator).usesSymbols = false := hslots
      rw [hslots', if_neg Bool.false_ne_true]
      refine .constant ?_
      have hbase : Segment.staticBase + Segment.staticSize ≤ maxConstant := by decide
      dsimp only
      omega
  · have hoperand : g'.entryOperand segment index = .constant index := by
      cases segment with
      | statics => exact absurd rfl hs
      | _ => rfl
    rw [hoperand]
    exact .constant (le_maxConstant hasks.inRange)

section
variable {g g' : Generator} {r : Request} {plan : Plan} (h : g.lower r = .ok (plan, g'))
include h

theorem writes_plan {l : Line} (hl : l ∈ plan.lines) : Writes g r l := by
  by_cases hplain : l.isPlain = true
  · exact .plain hplain
  · have hmem : l ∈ plan.lines.filter fun l => !l.isPlain := List.mem_filter.mpr ⟨hl, by simp [hplain]⟩
    obtain ⟨op, rfl, rfl, rfl⟩ | ⟨pops, segment, index, hasks, hclaim, rfl⟩ := lower_cases h
    · exact writes_operator hmem
    · rw [List.mem_singleton.mp ((filter_entryCode g' pops segment index).subset hmem)]
      exact writes_entry hasks hclaim

theorem remark_not_mem_plan (text : Text) : .remark text ∉ plan.lines := by
  intro hl
  have hmem : .remark text ∈ plan.lines.filter fun l => !l.isPlain := List.mem_filter.mpr ⟨hl, rfl⟩
  obtain ⟨op, rfl, rfl, rfl⟩ | ⟨pops, segment, index, -, -, rfl⟩ := lower_cases h
  · rw [filter_operatorCode] at hmem
    by_cases hop : op.isComparison = true
    · simp [if_pos hop, load] at hmem
    · rw [if_neg hop] at hmem
      cases hmem
  · cases List.mem_singleton.mp ((filter_entryCode g' pops segment index).subset hmem)

theorem writes_emission : ∀ l ∈ g'.emission r plan, Writes g r l := by
  intro l hl
  unfold emission at hl
  split at hl
  · obtain rfl | hl := List.mem_cons.mp hl
    · exact .remark
    · exact writes_plan h hl
  · exact writes_plan h hl

theorem legal_emission (hsymbols : g.usesSymbols = true → ∀ index, isSymbol (staticSymbol g.fileName index) = true) :
    ∀ l ∈ g'.emission r plan, l.Legal := by
  intro l hl
  cases writes_emission h l hl with
  | remark => exact lineFeed_not_mem_toText h
  | plain hplain => exact Line.legal_of_isPlain hplain
  | constant hn => exact hn
  | target hname => exact isSymbol_of_mem_pair hname
  | label hname => exact isSymbol_of_mem_pair hname
  | static hg _ => exact hsymbols hg _

/-- The labels declared in what is written for a request are the next pair, or none. -/
theorem declares_emission : (g'.emission r plan).filterMap Line.declares? = g.pair r ∧
    labelPairs (g'.written plan).comparisons = labelPairs g.comparisons ++ g.pair r := by
  have hremark : (g'.emission r plan).filterMap Line.declares? = plan.lines.filterMap Line.declares? := by
    unfold emission
    split <;> rfl
  rw [hremark]
  by_cases hr : r.compares = true
  · obtain ⟨op, rfl, rfl, rfl⟩ | ⟨pops, segment, index, ⟨rfl, -, -⟩, -, -⟩ := lower_cases h
    · cases op with
      | eq | gt | lt => exact ⟨rfl, labelPairs_succ _⟩
      | _ => cases hr
    · cases hr
  · have hpair : g.pair r = [] := by simp [pair, hr]
    rw [hpair, List.append_nil]
    constructor
    · rw [List.filterMap_eq_nil_iff]
      intro l hl
      rw [Option.eq_none_iff_forall_ne_some]
      intro name hname
      rw [Line.declares?_eq_some.mp hname] at hl
      cases writes_plan h hl with
      | plain hplain => cases hplain
      | label hname => rw [hpair] at hname; cases hname
    · have hcomparison : plan.comparison = false := by
        obtain ⟨op, rfl, rfl, -⟩ | ⟨_, _, _, -, -, rfl⟩ := lower_cases h
        · rw [compares_operator, Bool.not_eq_true] at hr
          exact hr
        · rfl
      unfold written
      rw [hcomparison, lower_fields h]
      rfl

end

theorem mem_emission_static {g : Generator} (hg : g.usesSymbols = true) {r : Request} {plan : Plan}
    (h : g.lower r = .ok (plan, g)) {kind : Kind} {index : Nat} (hr : r = .access kind Segment.statics.name index) :
    load (.symbol (staticSymbol g.fileName index)) ∈ g.emission r plan := by
  obtain ⟨index', rest, hindex, hcode⟩ := symbol_emission hg h hr
  rw [Int.natCast_inj.mp hindex]
  refine (List.mem_filter.mp (?_ : _ ∈ (g.emission r plan).filter Line.isCode)).1
  rw [hcode]
  exact List.mem_cons_self

end Generator

end HackStack
