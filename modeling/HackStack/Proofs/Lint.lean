import HackStack.Lint
import HackStack.Proofs.Asm.Rendered

/-!
# Lines without issues

The linter finds nothing in the text of legal lines that declare every label once, and every generated jump target that
they use. What it knows behind some of the lines is told by `Clean`: the labels declared and the targets used so far.
-/

namespace HackStack

open Asm

namespace Lint

theorem content_toText {l : Line} (h : l.Legal) : content l.toText = l.bare := by
  unfold content
  rw [stripRemark_toText h, Text.trim_unbroken (Text.unbroken_graphic (all_isGraphic_bare h))]

theorem numbered_render {ls : List Line} (h : ∀ l ∈ ls, l.Legal) :
    Listing.numbered content (render ls) = entriesFrom 1 (ls.map Line.bare) := by
  have hcontents : (Text.lines (render ls)).map content = ls.map Line.bare ++ [[]] := by
    rw [lines_render h, List.map_append, List.map_map]
    congr 1
    apply List.map_congr_left
    intro l hl
    exact content_toText (h l hl)
  unfold Listing.numbered
  rw [numberedFrom_eq, hcontents, entriesFrom_append]
  simp

theorem endsWith_labelText (name : Text) : Text.endsWith [41] (labelText name) = true := by
  rw [Text.endsWith, List.isSuffixOf_iff_suffix]
  exact ⟨40 :: name, rfl⟩

theorem dropEnding_labelText (name : Text) : Text.dropEnding [41] ((labelText name).drop 1) = name := by
  have hends : Text.endsWith [41] (name ++ [41]) = true := by
    rw [Text.endsWith, List.isSuffixOf_iff_suffix]
    exact ⟨name, rfl⟩
  rw [show (labelText name).drop 1 = name ++ [41] from rfl, Text.dropEnding, if_pos hends]
  simp

theorem assemble_instruction {i : Instruction} (h : i.Legal) : ∃ p, assemble i.toText = .ok p := by
  rw [assemble_ok_iff, contents_instruction h]
  intro before text after hlines _
  have htext : text ∈ [i.toText] := by rw [hlines]; simp
  rw [List.mem_singleton.mp htext]
  exact .instruction (ofText_eq_ok_iff.mp (ofText_toText h))

theorem entry_other (s : State) (n : Nat) {text : Text} (hat : text.head? ≠ some 64) (hparen : text.head? ≠ some 40) :
    s.entry ⟨n, text⟩ = s.other n text := by
  unfold State.entry
  dsimp only
  split
  · exact absurd rfl hparen
  · exact absurd rfl hat
  · rfl

/-! ## What the linter knows -/

theorem contains_insert (known : Std.TreeMap Text Nat) (name other : Text) (n : Nat) :
    (known.insert name n).contains other = true ↔ name = other ∨ known.contains other = true := by
  rw [Std.TreeMap.contains_insert]
  simp

/-- Whether the linter has found nothing in lines, and knows their labels and the generated targets that they use. -/
structure Clean (ls : List Line) (s : State) : Prop where
  issues : s.issues = []
  declared : ∀ name, s.declared.contains name = true ↔ .label name ∈ ls
  referenced : ∀ name, s.referenced.contains name = true ↔
    isGenerated name = true ∧ .instruction (.load (.symbol name)) ∈ ls

namespace Clean

theorem start : Clean [] {} where
  issues := rfl
  declared := by simp
  referenced := by simp

section
variable {ls : List Line} {s : State} (h : Clean ls s)
include h

theorem skip {l : Line} (hlabel : ∀ name, l ≠ .label name)
    (hload : ∀ name, isGenerated name = true → l = .instruction (.load (.symbol name)) →
      .instruction (.load (.symbol name)) ∈ ls) : Clean (ls ++ [l]) s where
  issues := h.issues
  declared := by
    intro name
    rw [h.declared, List.mem_append, List.mem_singleton, or_iff_left (Ne.symm (hlabel name))]
  referenced := by
    intro name
    rw [h.referenced, List.mem_append, List.mem_singleton, and_congr_right_iff]
    intro hgenerated
    constructor
    · exact .inl
    · rintro (hl | hl)
      · exact hl
      · exact hload name hgenerated hl.symm

theorem label {name : Text} (hsymbol : isSymbol name = true) (hnew : .label name ∉ ls) (n : Nat) :
    Clean (ls ++ [.label name]) (s.label n (labelText name)) := by
  have hnone : s.declared[name]? = none := by
    apply Std.TreeMap.getElem?_eq_none
    rw [Std.TreeMap.mem_iff_contains, h.declared]
    exact hnew
  unfold State.label
  simp only [endsWith_labelText, dropEnding_labelText, hsymbol, hnone, Bool.not_true, Bool.or_self, Bool.false_eq_true,
    if_false]
  refine ⟨h.issues, fun other => ?_, fun other => ?_⟩
  · rw [contains_insert, h.declared, List.mem_append, List.mem_singleton, Line.label.injEq, or_comm, eq_comm]
  · simp [h.referenced]

theorem constant {n : Nat} (hn : n ≤ maxConstant) (line : Nat) :
    Clean (ls ++ [.instruction (.load (.constant n))]) (s.address line (Text.decimal n)) := by
  obtain ⟨b, rest, hdigits, hb⟩ := isDigit_head_decimal n
  have hdigit : (Text.decimal n).head?.any Text.isDigit = true := by simp [hdigits, hb]
  unfold State.address
  simp only [hdigit, if_true, Text.readNat?_decimal, if_pos hn]
  exact h.skip (by simp) (by simp)

theorem symbol {name : Text} (hsymbol : isSymbol name = true) (line : Nat) :
    Clean (ls ++ [.instruction (.load (.symbol name))]) (s.address line name) := by
  have hdigit : name.head?.any Text.isDigit = false := by
    cases name with
    | nil => rfl
    | cons b rest =>
      simp only [isSymbol, Bool.and_eq_true, Bool.not_eq_true'] at hsymbol
      simp [hsymbol.1]
  unfold State.address
  simp only [hdigit, hsymbol, Bool.false_eq_true, if_false, Bool.not_true]
  by_cases hfirst : (isGenerated name && !s.referenced.contains name) = true
  · -- Only the first use of a target is noted.
    rw [if_pos hfirst]
    rw [Bool.and_eq_true] at hfirst
    refine ⟨h.issues, fun other => ?_, fun other => ?_⟩
    · simp [h.declared]
    · rw [contains_insert, h.referenced, List.mem_append, List.mem_singleton]
      constructor
      · rintro (rfl | ⟨hgenerated, hl⟩)
        · exact ⟨hfirst.1, .inr rfl⟩
        · exact ⟨hgenerated, .inl hl⟩
      · rintro ⟨hgenerated, hl | hl⟩
        · exact .inr ⟨hgenerated, hl⟩
        · cases hl
          exact .inl rfl
  · rw [if_neg hfirst]
    refine h.skip (by simp) ?_
    intro other hgenerated hl
    cases hl
    simp only [hgenerated, Bool.true_and, Bool.not_eq_true', Bool.not_eq_false] at hfirst
    exact ((h.referenced name).mp hfirst).2

theorem compute {dest : List Register} (hdest : dest.Nodup) (comp : Computation) (jump : Option Jump) (line : Nat) :
    Clean (ls ++ [.instruction (.compute dest comp jump)])
      (s.other line (Instruction.compute dest comp jump).toText) := by
  obtain ⟨p, hp⟩ := assemble_instruction (i := .compute dest comp jump) hdest
  unfold State.other
  rw [hp]
  exact h.skip (by simp) (by simp)

theorem entry {l : Line} (hlegal : l.Legal) (hnew : ∀ name, l = .label name → .label name ∉ ls) (n : Nat) :
    Clean (ls ++ [l]) (if l.bare.isEmpty then s else s.entry ⟨n, l.bare⟩) := by
  match l, hlegal, hnew with
  | .remark text, _, _ => exact h.skip (by simp) (by simp)
  | .label name, hlegal, hnew => exact h.label hlegal (hnew name rfl) n
  | .instruction (.load (.constant k)), hlegal, _ => exact h.constant hlegal n
  | .instruction (.load (.symbol name)), hlegal, _ => exact h.symbol hlegal n
  | .instruction (.compute dest comp jump), hlegal, _ =>
    have hne := instructionText_ne_nil (.compute dest comp jump)
    obtain ⟨hat, hparen⟩ := head?_computeText dest comp jump
    rw [show (Line.instruction (.compute dest comp jump)).bare = (Instruction.compute dest comp jump).toText from rfl,
      if_neg (by simpa using hne), entry_other s n hat hparen]
    exact h.compute hlegal comp jump n

end

theorem run (ls : List Line) (hlegal : ∀ l ∈ ls, l.Legal) (hnodup : (ls.filterMap Line.declares?).Nodup) :
    Clean ls ((entriesFrom 1 (ls.map Line.bare)).foldl State.entry {}) := by
  induction ls using List.reverseRecOn with
  | nil => exact start
  | append_singleton ls l ih =>
    rw [List.forall_mem_append] at hlegal
    have hnew : ∀ name, l = .label name → .label name ∉ ls := by
      rintro name rfl
      exact label_not_mem_of_nodup hnodup
    rw [List.filterMap_append, List.nodup_append] at hnodup
    have hstep := (ih hlegal.1 hnodup.1).entry (hlegal.2 l (by simp)) hnew (1 + (ls.map Line.bare).length)
    rw [List.map_append, List.map_singleton, entriesFrom_append, List.foldl_append]
    split
    · rename_i hempty
      rwa [if_pos hempty] at hstep
    · rename_i hempty
      rwa [if_neg hempty] at hstep

end Clean

end Lint

theorem lint_render {ls : List Line} (hlegal : ∀ l ∈ ls, l.Legal) (hnodup : (ls.filterMap Line.declares?).Nodup)
    (hdeclared : ∀ name, Lint.isGenerated name = true → .instruction (.load (.symbol name)) ∈ ls → .label name ∈ ls) :
    lint (render ls) = [] := by
  have hclean := Lint.Clean.run ls hlegal hnodup
  unfold lint
  rw [Lint.numbered_render hlegal]
  simp only [hclean.issues, List.reverse_nil, List.nil_append, Lint.State.undeclared, List.map_eq_nil_iff,
    List.filter_eq_nil_iff]
  rintro ⟨name, line⟩ hmem
  rw [Std.TreeMap.mem_toList_iff_getElem?_eq_some] at hmem
  have hcontains := hclean.referenced name
  rw [Std.TreeMap.contains_eq_isSome_getElem?, hmem] at hcontains
  obtain ⟨hgenerated, hload⟩ := hcontains.mp rfl
  simp [(hclean.declared name).mpr (hdeclared name hgenerated hload)]

end HackStack
