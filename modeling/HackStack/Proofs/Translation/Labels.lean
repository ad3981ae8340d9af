import HackStack.Proofs.Translation.Calls
import Mathlib.Data.List.Basic

/-!
# Labels of comparisons

A comparison that is written takes the next label pair. A call that is rejected or fails to write takes none, so
the pairs in the text are numbered without gaps and each of them is declared once, behind its only reference.
-/

namespace HackStack

open Asm Template

/-! ## Label pairs -/

def Request.compares : Request → Bool
  | operator word => word == ascii "eq" || word == ascii "gt" || word == ascii "lt"
  | access _ _ _ => false

def labelPairs (n : Nat) : List Text := (List.range n).flatMap fun k => [falseLabel k, continueLabel k]

def isPairLabel (name : Text) : Bool :=
  Text.startsWith (ascii "FALSE") name || Text.startsWith (ascii "CONTINUE") name

theorem labelPairs_succ (n : Nat) : labelPairs (n + 1) = labelPairs n ++ [falseLabel n, continueLabel n] := by
  simp [labelPairs, List.range_succ]

theorem mem_labelPairs {n : Nat} {name : Text} :
    name ∈ labelPairs n ↔ ∃ k < n, name = falseLabel k ∨ name = continueLabel k := by
  simp [labelPairs]

theorem falseLabel_injective {k k' : Nat} (h : falseLabel k = falseLabel k') : k = k' :=
  Text.decimal_injective (List.append_cancel_left h)

theorem continueLabel_injective {k k' : Nat} (h : continueLabel k = continueLabel k') : k = k' :=
  Text.decimal_injective (List.append_cancel_left h)

theorem falseLabel_ne_continueLabel (k k' : Nat) : falseLabel k ≠ continueLabel k' := by
  intro h
  have hhead : (falseLabel k).head? = (continueLabel k').head? := by rw [h]
  exact absurd hhead (by simp [falseLabel, continueLabel, ascii])

theorem falseLabel_mem {n k : Nat} : falseLabel k ∈ labelPairs n ↔ k < n := by
  rw [mem_labelPairs]
  constructor
  · rintro ⟨i, hi, h | h⟩
    · rwa [falseLabel_injective h]
    · exact absurd h (falseLabel_ne_continueLabel k i)
  · exact fun h => ⟨k, h, .inl rfl⟩

theorem continueLabel_mem {n k : Nat} : continueLabel k ∈ labelPairs n ↔ k < n := by
  rw [mem_labelPairs]
  constructor
  · rintro ⟨i, hi, h | h⟩
    · exact absurd h.symm (falseLabel_ne_continueLabel i k)
    · rwa [continueLabel_injective h]
  · exact fun h => ⟨k, h, .inr rfl⟩

theorem nodup_labelPairs (n : Nat) : (labelPairs n).Nodup := by
  induction n with
  | zero => simp [labelPairs]
  | succ n ih =>
    rw [labelPairs_succ, List.nodup_append]
    refine ⟨ih, by simp [falseLabel_ne_continueLabel], ?_⟩
    intro name hname other hother
    rintro rfl
    simp only [List.mem_cons, List.not_mem_nil, or_false] at hother
    obtain rfl | rfl := hother
    · exact absurd (falseLabel_mem.mp hname) (Nat.lt_irrefl n)
    · exact absurd (continueLabel_mem.mp hname) (Nat.lt_irrefl n)

theorem isPairLabel_falseLabel (k : Nat) : isPairLabel (falseLabel k) = true := by
  simp [isPairLabel, Text.startsWith, falseLabel]

theorem isPairLabel_continueLabel (k : Nat) : isPairLabel (continueLabel k) = true := by
  simp [isPairLabel, Text.startsWith, continueLabel]

theorem isPairLabel_of_mem {n : Nat} {name : Text} (h : name ∈ labelPairs n) : isPairLabel name = true := by
  obtain ⟨k, -, rfl | rfl⟩ := mem_labelPairs.mp h
  · exact isPairLabel_falseLabel k
  · exact isPairLabel_continueLabel k

/-! ## Lines with labels -/

namespace Asm.Line

def refers? : Line → Option Text
  | .instruction (.load (.symbol name)) => some name
  | _ => none

def isQuiet : Line → Bool
  | .label _ => false
  | .instruction (.load (.symbol name)) => !isPairLabel name
  | _ => true

theorem refers?_eq_some {l : Line} {name : Text} : l.refers? = some name ↔ l = load (.symbol name) := by
  unfold refers?
  split
  · simp [load]
  · rename_i h
    simp only [reduceCtorEq, false_iff]
    exact h name

end Asm.Line

/-- Whether lines declare and use the label pairs below `n`, each label once and never behind its declaration. -/
structure Labelled (n : Nat) (ls : List Line) : Prop where
  declared : ls.filterMap Line.declares? = labelPairs n
  referred : (ls.filterMap Line.refers?).filter isPairLabel = labelPairs n
  ordered : ls.Pairwise fun l l' => ∀ name, l = .label name → l' ≠ load (.symbol name)

namespace Labelled

section
variable {n : Nat} {ls : List Line} (h : Labelled n ls)
include h

theorem mem_of_label {name : Text} (hl : .label name ∈ ls) : name ∈ labelPairs n := by
  rw [← h.declared, List.mem_filterMap]
  exact ⟨_, hl, rfl⟩

theorem quiet {xs : List Line} (hx : ∀ l ∈ xs, l.isQuiet = true) : Labelled n (ls ++ xs) := by
  have hlabel : ∀ {name}, .label name ∉ xs := fun hl => absurd (hx _ hl) (by simp [Line.isQuiet])
  have hload : ∀ {name}, load (.symbol name) ∈ xs → isPairLabel name = false := by
    intro name hl
    simpa [Line.isQuiet, load] using hx _ hl
  constructor
  · rw [List.filterMap_append, h.declared, List.filterMap_eq_nil_iff.mpr, List.append_nil]
    intro l hl
    rw [Option.eq_none_iff_forall_ne_some]
    intro name hname
    rw [Line.declares?_eq_some] at hname
    exact hlabel (hname ▸ hl)
  · rw [List.filterMap_append, List.filter_append, h.referred]
    suffices hnone : (xs.filterMap Line.refers?).filter isPairLabel = [] by rw [hnone, List.append_nil]
    rw [List.filter_eq_nil_iff]
    intro name hname
    obtain ⟨l, hl, hrefers⟩ := List.mem_filterMap.mp hname
    rw [Line.refers?_eq_some] at hrefers
    rw [hload (hrefers ▸ hl)]
    exact Bool.false_ne_true
  · rw [List.pairwise_append]
    refine ⟨h.ordered, ?_, ?_⟩
    · exact List.pairwise_of_forall_mem_list fun l hl _ _ name e => absurd (e ▸ hl) hlabel
    · rintro l hl l' hl' name rfl rfl
      have := isPairLabel_of_mem (h.mem_of_label hl)
      rw [hload hl'] at this
      cases this

theorem compare (ifNot : Jump) : Labelled (n + 1) (ls ++ compare ifNot n) := by
  have hdeclared : (Template.compare ifNot n).filterMap Line.declares? = [falseLabel n, continueLabel n] := rfl
  have hreferred : (Template.compare ifNot n).filterMap Line.refers? =
      [ascii "SP", falseLabel n, ascii "SP", continueLabel n, ascii "SP"] := rfl
  constructor
  · rw [List.filterMap_append, h.declared, hdeclared, labelPairs_succ]
  · have hsp : isPairLabel (ascii "SP") = false := by decide
    rw [List.filterMap_append, List.filter_append, h.referred, hreferred, labelPairs_succ]
    simp [hsp, isPairLabel_falseLabel, isPairLabel_continueLabel]
  · rw [List.pairwise_append]
    refine ⟨h.ordered, ?_, ?_⟩
    · have hsp : ascii "SP" ≠ falseLabel n := by
        intro e
        have hpair := isPairLabel_falseLabel n
        rw [← e] at hpair
        cases hpair
      simp [Template.compare, popOperands, pointToTop, stackPointer, assign, load, jump, hsp]
    · rintro l hl l' hl' name rfl rfl
      have hname := h.mem_of_label hl
      have hused : name ∈ (Template.compare ifNot n).filterMap Line.refers? := List.mem_filterMap.mpr ⟨_, hl', rfl⟩
      rw [hreferred] at hused
      simp only [List.mem_cons, List.not_mem_nil, or_false] at hused
      have hpair := isPairLabel_of_mem hname
      obtain rfl | rfl | rfl | rfl | rfl := hused
      · cases hpair
      · exact absurd (falseLabel_mem.mp hname) (Nat.lt_irrefl n)
      · cases hpair
      · exact absurd (continueLabel_mem.mp hname) (Nat.lt_irrefl n)
      · cases hpair

theorem before {i j : Nat} {name : Text} (hi : ls[i]? = some (load (.symbol name)))
    (hj : ls[j]? = some (.label name)) : i < j := by
  by_contra hle
  obtain rfl | hlt := Nat.eq_or_lt_of_le (Nat.le_of_not_lt hle)
  · cases hi.symm.trans hj
  · obtain ⟨hjl, hj⟩ := List.getElem?_eq_some_iff.mp hj
    obtain ⟨hil, hi⟩ := List.getElem?_eq_some_iff.mp hi
    exact List.pairwise_iff_getElem.mp h.ordered j i hjl hil hlt name hj hi

theorem code : Labelled n (ls.filter Line.isCode) := by
  have hfilter : ∀ f : Line → Option Text, (∀ text, f (.remark text) = none) →
      (ls.filter Line.isCode).filterMap f = ls.filterMap f := by
    intro f hf
    rw [List.filterMap_filter]
    congr 1
    funext l
    cases l <;> simp [Line.isCode, hf]
  constructor
  · rw [hfilter _ fun _ => rfl, h.declared]
  · rw [hfilter _ fun _ => rfl, h.referred]
  · exact h.ordered.filter _

end

end Labelled

/-! ## Runs -/

namespace Generator

section
variable {g g' : Generator} (hg : g.staticSymbols = false)
include hg

theorem quiet_entry {segment : Segment} {index : Nat} (pops : Bool) :
    ∀ l ∈ g.entryCode pops segment index, l.isQuiet = true := by
  rw [← List.all_eq_true]
  cases segment with
  | pointer =>
    by_cases h : index = 0
    · subst h; cases pops <;> rfl
    · have hr : pointerRegister index = .symbol (ascii "THAT") := by simp [pointerRegister, h]
      cases pops <;> simp only [entryCode, loadValue, loadAddress, hr] <;> decide
  | statics =>
    have hs : g.staticOperand index = .constant (Segment.staticBase + g.staticFirst + index) := by
      simp [staticOperand, usesSymbols_eq_false hg]
    cases pops <;> simp only [entryCode, loadValue, loadAddress, hs] <;> rfl
  | _ => cases pops <;> rfl

/-- What is written for a request adds a label pair if it is a comparison, and nothing otherwise. -/
theorem labelled_emission {r : Request} {plan : Plan} (h : g.lower r = .ok (plan, g')) {ls : List Line}
    (hl : Labelled g.comparisons ls) :
    (g'.written plan).comparisons = g.comparisons + (if r.compares then 1 else 0) ∧
      Labelled (g'.written plan).comparisons (ls ++ g'.emission r plan) := by
  obtain ⟨pre, hpre, hemission⟩ : ∃ pre : List Line,
      (∀ l ∈ pre, l.isQuiet = true) ∧ g'.emission r plan = pre ++ plan.lines := by
    unfold emission
    split
    · exact ⟨[.remark r.toText], by simp [Line.isQuiet], rfl⟩
    · exact ⟨[], by simp, rfl⟩
  have hl := hl.quiet hpre
  rw [hemission, ← List.append_assoc]
  obtain ⟨op, rfl, rfl, rfl⟩ | ⟨pops, segment, index, ⟨rfl, -, -⟩, hclaim, rfl⟩ := lower_cases h
  · have hquiet : op.isComparison = false → ∀ l ∈ op.code g'.comparisons, l.isQuiet = true := by
      intro hop
      rw [← List.all_eq_true]
      cases op with
      | eq | gt | lt => cases hop
      | _ => rfl
    cases op with
    | eq => exact ⟨rfl, hl.compare .ne⟩
    | gt => exact ⟨rfl, hl.compare .le⟩
    | lt => exact ⟨rfl, hl.compare .ge⟩
    | _ => exact ⟨rfl, hl.quiet (hquiet rfl)⟩
  · have hcount : g'.comparisons = g.comparisons := by rw [claimEntry_fields hclaim]
    exact ⟨hcount, hcount ▸ hl.quiet (quiet_entry (staticSymbols_lower hg h) pops)⟩

end

end Generator

namespace Translator

theorem labelled_calls : ∀ (cs : List Call) {t : Translator MemorySink} {path : Text} {changes : Nat} {ls : List Line},
    t.generator.staticSymbols = false → (∀ l ∈ ls, l.Legal) → t.sink.text = render ls →
    Labelled t.generator.comparisons ls →
    (t.calls cs).generator.comparisons =
        t.generator.comparisons + (t.outputs path changes cs).countP (·.request.compares) ∧
      ∃ ls', (∀ l ∈ ls', l.Legal) ∧ (t.calls cs).sink.text = render ls' ∧
        Labelled (t.calls cs).generator.comparisons ls'
  | [], t, path, changes, ls, _, hlegal, htext, hl => ⟨rfl, ls, hlegal, htext, hl⟩
  | .file path' :: rest, t, path, changes, ls, hg, hlegal, htext, hl => by
    have ih := @labelled_calls rest { t with generator := t.generator.setFile path' } path'
      (if Generator.keptName path' = t.generator.fileName then changes else changes + 1) ls
      (by simpa using hg) hlegal htext (by simpa using hl)
    simpa only [calls, call, outputs, Generator.setFile_comparisons] using ih
  | .request r :: rest, t, path, changes, ls, hg, hlegal, htext, hl => by
    rw [calls, call, outputs]
    obtain ⟨e, he⟩ | ⟨plan, g, hlower, ⟨t', e, he, hgen, htext'⟩ | ⟨t', he, hgen, htext'⟩⟩ := request_cases t r
    · rw [he]
      exact labelled_calls rest hg hlegal htext hl
    · have hcount : t'.generator.comparisons = t.generator.comparisons := by
        rw [hgen, Generator.lower_fields hlower]
      rw [he, ← hcount]
      exact labelled_calls rest (by rw [hgen, Generator.staticSymbols_lower hg hlower]) hlegal (htext'.trans htext)
        (hcount ▸ hl)
    · obtain ⟨hcount, hlabelled⟩ := Generator.labelled_emission hg hlower hl
      have hlegal' := List.forall_mem_append.mpr ⟨hlegal, (Generator.implements_emission hg hlower).legal⟩
      have ih := @labelled_calls rest t' path changes _
        (by rw [hgen, Generator.staticSymbols_written, Generator.staticSymbols_lower hg hlower]) hlegal'
        (by rw [htext', htext, render_append]) (hgen ▸ hlabelled)
      rw [he]
      refine ⟨?_, ih.2⟩
      rw [ih.1, hgen, hcount, List.countP_cons]
      dsimp only
      omega

/-- After any calls to a fresh translator, with any writes failing: the text declares the label pairs that the
written comparisons have been numbered with, refers to each label once and before its declaration, and holds no
other labels of that kind. -/
theorem comparison_labels_unique (annotate : Bool) (fails : Nat → Bool) (cs : List Call) :
    let start := new annotate false ({ fails := fails } : MemorySink)
    let n := (start.outputs [] 0 cs).countP (·.request.compares)
    let text := (start.calls cs).sink.text
    let code := readLines text
    (start.calls cs).generator.comparisons = n ∧
      (∀ line ∈ Text.lines text, content line ≠ [] → (Line.ofText? line).isSome = true) ∧
      (labelPairs n).Nodup ∧ code.filterMap Line.declares? = labelPairs n ∧
      (code.filterMap Line.refers?).filter isPairLabel = labelPairs n ∧
      ∀ (i j : Nat) (name : Text),
        code[i]? = some (load (.symbol name)) → code[j]? = some (.label name) → i < j := by
  intro start n text code
  obtain ⟨hcount, ls, hlegal, htext, hl⟩ := @labelled_calls cs start [] 0 [] rfl (by simp) rfl
    ⟨rfl, rfl, .nil⟩
  have hn : (start.calls cs).generator.comparisons = n := hcount.trans (Nat.zero_add n)
  have hcode : code = ls.filter Line.isCode := by
    have := readLines_render hlegal
    rwa [← htext] at this
  have hcodeLabelled := hl.code
  rw [hn, ← hcode] at hcodeLabelled
  refine ⟨hn, ?_, nodup_labelPairs n, hcodeLabelled.declared, hcodeLabelled.referred, ?_⟩
  · have hread := readable_render hlegal
    rwa [← htext] at hread
  · intro i j name hi hj
    exact hcodeLabelled.before hi hj

end Translator

end HackStack
