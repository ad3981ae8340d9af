import HackStack.Proofs.Lint
import HackStack.Proofs.Text.Words

/-!
# What a text without issues is worth

The linter sees a line with the white space inside it, the assembler without. A line that raises no issue is the same
for both, or is assembled by the linter as it stands, so a text without issues breaks no rule for instructions and its
labels are well formed and declared once. What the linter does not look at is whether a label is predefined and how
far behind it stands: a text without issues is rejected for one of these two reasons or not at all.
-/

namespace HackStack

open Asm

namespace Lint

/-! ## Lines without issues -/

theorem content_eq_of_graphic {line text : Text} (h : content line = text) (hgraphic : text.all Text.isGraphic = true) :
    Asm.content line = text := by
  have hcompact : Text.compact text = text := Text.unbroken_iff.mp (Text.unbroken_graphic hgraphic)
  unfold content at h
  unfold Asm.content
  rw [← Text.compact_trim, h, hcompact]

theorem content_eq_nil {line : Text} (h : content line = []) : Asm.content line = [] :=
  content_eq_of_graphic h rfl

theorem contents_content {line : Text} (hfeed : Text.lineFeed ∉ line) :
    contents (content line) = [Asm.content line] := by
  have hpart : content line <:+: Text.stripRemark line := Text.trim_isInfix _
  have hfeed' : Text.lineFeed ∉ content line := by
    intro hm
    exact hfeed ((Text.stripRemark_isPrefix line).subset (hpart.subset hm))
  have hremark : ¬ [47, 47] <:+: content line := fun h => Text.not_infix_stripRemark line (h.trans hpart)
  unfold contents Text.lines
  rw [Text.splitAt_of_not_mem hfeed', List.map_singleton]
  unfold Asm.content
  rw [Text.stripRemark_of_not_infix hremark, content, Text.compact_trim]

theorem head?_content (line : Text) : (Asm.content line).head? = (content line).head? := by
  unfold Asm.content content
  rw [← Text.compact_trim, Text.head?_compact (Text.blankWidth_trim _)]

theorem spells_of_assemble {line : Text} {p : Program} (hfeed : Text.lineFeed ∉ line)
    (hparen : (content line).head? ≠ some 40) (h : assemble (content line) = .ok p) (hne : Asm.content line ≠ []) :
    ∃ i, Spells (Asm.content line) i := by
  have hg := assemble_ok_iff.mp ⟨p, h⟩ [] (Asm.content line) [] (contents_content hfeed) hne
  have hlabel : isLabel (Asm.content line) = false := by
    rw [Bool.eq_false_iff]
    intro hlabel
    obtain ⟨body, hbody⟩ := isLabel_iff.mp hlabel
    apply hparen
    rw [← head?_content, hbody]
    rfl
  exact (grammatical_instruction_iff (by simp [isInstruction, hne, hlabel])).mp hg

theorem all_isGraphic_of_spells {text : Text} {i : Instruction} (h : Spells text i) :
    text.all Text.isGraphic = true := by
  cases h with
  | constant _ hdigits _ =>
    rw [List.all_cons, List.all_eq_true.mpr]
    · rfl
    · intro b hb
      exact isGraphic_of_isSymbolByte (isSymbolByte_of_isDigit (hdigits b hb))
  | symbol hsymbol => exact all_isGraphic_instruction (i := .load (.symbol _)) hsymbol
  | compute comp jump hnodup => exact all_isGraphic_instruction (i := .compute _ comp jump) hnodup

theorem not_isGenerated_of_digit {b : UInt8} {rest : Text} (hb : Text.isDigit b = true) :
    isGenerated (b :: rest) = false := by
  rw [Bool.eq_false_iff]
  intro h
  simp only [isGenerated, List.any_cons, List.any_nil, Bool.or_false, Bool.or_eq_true, Bool.and_eq_true] at h
  obtain ⟨hstem, -⟩ | ⟨hstem, -⟩ := h
  · obtain ⟨tail, htail⟩ := List.isPrefixOf_iff_prefix.mp hstem
    cases htail
    cases hb
  · obtain ⟨tail, htail⟩ := List.isPrefixOf_iff_prefix.mp hstem
    cases htail
    cases hb

theorem eq_labelText_of_endsWith {body : Text} (h : Text.endsWith [41] (40 :: body) = true) :
    ∃ name, 40 :: body = labelText name := by
  obtain ⟨start, hstart⟩ := List.isSuffixOf_iff_suffix.mp h
  cases start with
  | nil => cases hstart
  | cons b name =>
    obtain ⟨rfl, -⟩ := List.cons.inj hstart
    exact ⟨name, hstart.symm⟩

/-! ## The linter at a line

When no issue is raised, the line is right by itself and nothing was found before. -/

section
variable {s : State} {n : Nat}

theorem label_cases {body : Text} (h : (s.label n (40 :: body)).issues = []) :
    s.issues = [] ∧ ∃ name, 40 :: body = labelText name ∧ isSymbol name = true ∧ s.declared.contains name = false ∧
      s.label n (40 :: body) = { s with declared := s.declared.insert name n } := by
  by_cases hends : Text.endsWith [41] (40 :: body) = true
  · obtain ⟨name, hname⟩ := eq_labelText_of_endsWith hends
    rw [hname] at h ⊢
    unfold State.label at h ⊢
    simp only [endsWith_labelText, dropEnding_labelText, Bool.not_true, Bool.false_or] at h ⊢
    by_cases hsymbol : isSymbol name = true
    · simp only [hsymbol, Bool.not_true, Bool.false_eq_true, if_false] at h ⊢
      cases hdeclared : s.declared[name]? with
      | some first =>
        rw [hdeclared] at h
        cases h
      | none =>
        rw [hdeclared] at h
        have hnew : s.declared.contains name = false := by
          rw [Std.TreeMap.contains_eq_isSome_getElem?, hdeclared]
          rfl
        exact ⟨h, name, rfl, hsymbol, hnew, rfl⟩
    · simp only [hsymbol, Bool.not_false, if_true] at h
      cases h
  · unfold State.label at h
    simp only [hends, Bool.not_false, Bool.true_or, if_true] at h
    cases h

theorem address_cases {operand : Text} (h : (s.address n operand).issues = []) :
    s.issues = [] ∧ (∃ i, Spells (64 :: operand) i) ∧ (s.address n operand).declared = s.declared ∧
      ∀ name, (s.address n operand).referenced.contains name = true ↔
        s.referenced.contains name = true ∨ name = operand ∧ isGenerated operand = true := by
  unfold State.address at h ⊢
  by_cases hdigit : operand.head?.any Text.isDigit = true
  · rw [if_pos hdigit] at h ⊢
    cases operand with
    | nil => cases hdigit
    | cons b rest =>
      have hb : Text.isDigit b = true := hdigit
      cases hread : Text.readNat? (b :: rest) with
      | none =>
        rw [hread] at h
        cases h
      | some value =>
        rw [hread] at h
        by_cases hle : value ≤ maxConstant
        · simp only [hle, if_true] at h ⊢
          have hoperand : Operand.ofText (b :: rest) = .ok (.constant value) := by
            simp [Operand.ofText, hb, hread, hle]
          refine ⟨h, ⟨_, Operand.ofText_ok hoperand⟩, trivial, ?_⟩
          simp [not_isGenerated_of_digit hb]
        · simp only [hle, if_false] at h
          cases h
  · rw [if_neg hdigit] at h ⊢
    by_cases hsymbol : isSymbol operand = true
    · simp only [hsymbol, Bool.not_true, Bool.false_eq_true, if_false] at h ⊢
      by_cases hfirst : (isGenerated operand && !s.referenced.contains operand) = true
      · rw [if_pos hfirst] at h ⊢
        rw [Bool.and_eq_true] at hfirst
        refine ⟨h, ⟨_, .symbol hsymbol⟩, rfl, fun name => ?_⟩
        rw [contains_insert, or_comm, and_iff_left hfirst.1, eq_comm (a := name)]
      · rw [if_neg hfirst] at h ⊢
        refine ⟨h, ⟨_, .symbol hsymbol⟩, rfl, fun name => ?_⟩
        constructor
        · exact .inl
        · rintro (hname | ⟨rfl, hgenerated⟩)
          · exact hname
          · simpa [hgenerated] using hfirst
    · simp only [hsymbol, Bool.not_false, if_true] at h
      cases h

theorem other_cases {text : Text} (h : (s.other n text).issues = []) :
    s.issues = [] ∧ (∃ p, assemble text = .ok p) ∧ s.other n text = s := by
  unfold State.other at h ⊢
  cases hp : assemble text with
  | ok p =>
    rw [hp] at h
    exact ⟨h, ⟨p, rfl⟩, rfl⟩
  | error e =>
    rw [hp] at h
    cases h

end

/-! ## What the linter has let pass -/

/-- What is known of lines in which the linter has found nothing. -/
structure Passed (lines : List Text) (s : State) : Prop where
  declared : ∀ name, s.declared.contains name = true ↔ labelText name ∈ lines
  referenced : ∀ name, isGenerated name = true → (64 :: name) ∈ lines → s.referenced.contains name = true
  labels : ∀ before text after, lines = before ++ text :: after → isLabel text = true →
    ∃ name, text = labelText name ∧ isSymbol name = true ∧ labelText name ∉ before
  instructions : ∀ text ∈ lines, isInstruction text = true → ∃ i, Spells text i

namespace Passed

theorem start : Passed [] {} where
  declared := by simp
  referenced := by simp
  labels := by simp
  instructions := by simp

section
variable {lines : List Text} {s : State} (h : Passed lines s)
include h

theorem extend {text : Text} {s' : State}
    (hdeclared : ∀ name, s'.declared.contains name = true ↔ s.declared.contains name = true ∨ text = labelText name)
    (hreferenced : ∀ name, isGenerated name = true → s.referenced.contains name = true ∨ text = 64 :: name →
      s'.referenced.contains name = true)
    (hlabel : isLabel text = true → ∃ name, text = labelText name ∧ isSymbol name = true ∧ labelText name ∉ lines)
    (hspells : isInstruction text = true → ∃ i, Spells text i) : Passed (lines ++ [text]) s' where
  declared := by
    intro name
    rw [hdeclared, h.declared, List.mem_append, List.mem_singleton, eq_comm (a := text)]
  referenced := by
    intro name hgenerated hm
    rw [List.mem_append, List.mem_singleton] at hm
    exact hreferenced name hgenerated (hm.imp (h.referenced name hgenerated) Eq.symm)
  labels := by
    intro before line after hlines hline
    obtain ⟨-, rfl, rfl⟩ | ⟨rest, -, hlines⟩ := append_singleton_eq.mp hlines
    · exact hlabel hline
    · exact h.labels before line rest hlines hline
  instructions := by
    intro line hline hi
    rw [List.mem_append, List.mem_singleton] at hline
    obtain hline | rfl := hline
    · exact h.instructions line hline hi
    · exact hspells hi

theorem skip {text : Text} (hat : text.head? ≠ some 64) (hparen : text.head? ≠ some 40)
    (hspells : isInstruction text = true → ∃ i, Spells text i) : Passed (lines ++ [text]) s := by
  apply h.extend
  · intro name
    refine (or_iff_left ?_).symm
    rintro rfl
    exact hparen rfl
  · rintro name - (hname | rfl)
    · exact hname
    · exact absurd rfl hat
  · intro hlabel
    obtain ⟨body, rfl⟩ := isLabel_iff.mp hlabel
    exact absurd rfl hparen
  · exact hspells

theorem label {name : Text} (hsymbol : isSymbol name = true) (hnew : s.declared.contains name = false) (n : Nat) :
    Passed (lines ++ [labelText name]) { s with declared := s.declared.insert name n } := by
  apply h.extend
  · intro other
    rw [contains_insert, or_comm]
    exact or_congr_right ⟨congrArg labelText, labelText_injective⟩
  · rintro other - (hother | hother)
    · exact hother
    · cases hother
  · intro _
    refine ⟨name, rfl, hsymbol, fun hm => ?_⟩
    rw [← h.declared, hnew] at hm
    cases hm
  · intro hi
    cases hi

theorem address {operand : Text} {n : Nat} (hissues : (s.address n operand).issues = []) :
    Passed (lines ++ [64 :: operand]) (s.address n operand) := by
  obtain ⟨-, hspells, hdeclared, hreferenced⟩ := address_cases hissues
  apply h.extend
  · intro name
    rw [hdeclared]
    refine (or_iff_left ?_).symm
    intro hname
    cases hname
  · rintro name hgenerated (hname | hname)
    · exact (hreferenced name).mpr (.inl hname)
    · obtain ⟨-, rfl⟩ := List.cons.inj hname
      exact (hreferenced operand).mpr (.inr ⟨rfl, hgenerated⟩)
  · intro hlabel
    cases hlabel
  · exact fun _ => hspells

/-- One more line without an issue, as the linter sees it and as the assembler does. -/
theorem entry {line : Text} {n : Nat} (hfeed : Text.lineFeed ∉ line)
    (hissues : (s.entry ⟨n, content line⟩).issues = []) :
    Passed (lines ++ [Asm.content line]) (s.entry ⟨n, content line⟩) := by
  by_cases hparen : (content line).head? = some 40
  · obtain ⟨body, hbody⟩ := List.head?_eq_some_iff.mp hparen
    rw [hbody] at hissues ⊢
    obtain ⟨-, name, hname, hsymbol, hnew, heq⟩ := label_cases hissues
    have hcontent : Asm.content line = labelText name :=
      content_eq_of_graphic (hbody.trans hname) (all_isGraphic_line (l := .label name) hsymbol (by simp))
    rw [hcontent, show s.entry ⟨n, 40 :: body⟩ = s.label n (40 :: body) from rfl, heq]
    exact h.label hsymbol hnew n
  · by_cases hat : (content line).head? = some 64
    · obtain ⟨operand, hoperand⟩ := List.head?_eq_some_iff.mp hat
      rw [hoperand] at hissues ⊢
      obtain ⟨-, ⟨i, hspells⟩, -⟩ := address_cases hissues
      rw [content_eq_of_graphic hoperand (all_isGraphic_of_spells hspells)]
      exact h.address hissues
    · rw [entry_other s n hat hparen] at hissues ⊢
      obtain ⟨-, ⟨p, hp⟩, heq⟩ := other_cases hissues
      rw [heq]
      rw [← head?_content] at hat hparen
      refine h.skip hat hparen fun hi => ?_
      rw [head?_content] at hparen
      exact spells_of_assemble hfeed hparen hp (by rintro hnil; rw [hnil] at hi; cases hi)

end

end Passed

theorem issues_of_entry {s : State} {e : Entry} (h : (s.entry e).issues = []) : s.issues = [] := by
  unfold State.entry at h
  split at h
  · rename_i heq
    rw [heq] at h
    exact (label_cases h).1
  · exact (address_cases h).1
  · exact (other_cases h).1

theorem Passed.run (ls : List Text) (hfeed : ∀ line ∈ ls, Text.lineFeed ∉ line)
    (hissues : ((entriesFrom 1 (ls.map content)).foldl State.entry {}).issues = []) :
    Passed (ls.map Asm.content) ((entriesFrom 1 (ls.map content)).foldl State.entry {}) := by
  induction ls using List.reverseRecOn with
  | nil => exact start
  | append_singleton ls line ih =>
    rw [List.forall_mem_append] at hfeed
    rw [List.map_append (f := Asm.content), List.map_singleton]
    rw [List.map_append, List.map_singleton, entriesFrom_append, List.foldl_append] at hissues ⊢
    by_cases hempty : (content line).isEmpty = true
    · rw [if_pos hempty] at hissues ⊢
      rw [content_eq_nil (List.isEmpty_iff.mp hempty)]
      exact (ih hfeed.1 hissues).skip (by simp) (by simp) (by simp [isInstruction])
    · rw [if_neg hempty] at hissues ⊢
      exact (ih hfeed.1 (issues_of_entry hissues)).entry (hfeed.2 line (by simp)) hissues

theorem isGenerated_append {stem digits : Text} (hstem : stem ∈ [ascii "FALSE", ascii "CONTINUE"]) (hne : digits ≠ [])
    (hdigits : ∀ b ∈ digits, Text.isDigit b = true) : isGenerated (stem ++ digits) = true := by
  have hread : Text.readNat? digits = some (Text.digitsValue digits) := by
    simp [Text.readNat?, hne, List.all_eq_true.mpr hdigits]
  unfold isGenerated
  rw [List.any_eq_true]
  refine ⟨stem, hstem, ?_⟩
  simp [Text.startsWith, hread]

/-- A text without issues: what the linter knows behind it, and that every target used is declared. -/
theorem passed_of_lint {source : Text} (h : lint source = []) : ∃ s, Passed (contents source) s ∧
    ∀ name, s.referenced.contains name = true → s.declared.contains name = true := by
  unfold lint Listing.numbered at h
  rw [numberedFrom_eq] at h
  simp only [List.append_eq_nil_iff, List.reverse_eq_nil_iff] at h
  refine ⟨_, Passed.run (Text.lines source) (fun line => Text.mark_not_mem_splitAt) h.1, fun name hname => ?_⟩
  have hundeclared := h.2
  simp only [State.undeclared, List.map_eq_nil_iff, List.filter_eq_nil_iff] at hundeclared
  rw [Std.TreeMap.contains_eq_isSome_getElem?, Option.isSome_iff_exists] at hname
  obtain ⟨n, hn⟩ := hname
  have hmem := Std.TreeMap.mem_toList_iff_getElem?_eq_some.mpr hn
  simpa using hundeclared (name, n) hmem

end Lint

/-! ## Whole texts -/

section
variable {lines : List Text} {s : Lint.State} (h : Lint.Passed lines s)
include h

/-- Lines that the linter has let pass are grammatical up to what it does not look at. -/
theorem grammatical_of_passed {before after : List Text} {text : Text} (hlines : lines = before ++ text :: after)
    (hne : text ≠ [])
    (hlabel : ∀ name, text = labelText name → name ∉ predefined.map Prod.fst ∧ before.countP isInstruction ≤ 32767) :
    Grammatical before text := by
  by_cases hl : isLabel text = true
  · obtain ⟨name, rfl, hsymbol, hnew⟩ := h.labels before text after hlines hl
    obtain ⟨hfree, hcount⟩ := hlabel name rfl
    exact .label hsymbol hfree hnew hcount
  · have hi : isInstruction text = true := by simp [isInstruction, hne, hl]
    obtain ⟨i, hspells⟩ := h.instructions text (by simp [hlines]) hi
    exact .instruction hspells

theorem bindLabel_error_of_passed {before after : List Text} {text : Text} {table : SymbolTable} {p : Problem}
    (hlines : lines = before ++ text :: after) (hlabel : isLabel text = true) (hbound : Bound before table)
    (hp : bindLabel table (before.countP isInstruction) text = .error p) :
    ∃ name, text = labelText name ∧
      (p = .duplicateLabel name ∧ name ∈ predefined.map Prod.fst ∨
        p = .labelBeyondRom name ∧ 32767 < before.countP isInstruction) := by
  obtain ⟨name, rfl, hsymbol, hnew⟩ := h.labels before text after hlines hlabel
  refine ⟨name, rfl, ?_⟩
  cases hname : table[name]? with
  | none =>
    rw [bindLabel_label hsymbol hname] at hp
    by_cases hlt : maxConstant < before.countP isInstruction
    · rw [if_pos hlt, Except.error.injEq] at hp
      exact .inr ⟨hp.symm, hlt⟩
    · rw [if_neg hlt] at hp
      cases hp
  | some address =>
    have hcontains : table.contains name = true := by
      rw [Std.TreeMap.contains_eq_isSome_getElem?, hname]
      rfl
    have hfixed : name ∈ predefined.map Prod.fst := by
      by_contra hfree
      rw [hbound.eq_none_iff.mpr ⟨hfree, hnew⟩] at hname
      cases hname
    unfold bindLabel at hp
    rw [labelText, labelName_label hsymbol] at hp
    simp only [bind, Except.bind, hcontains, if_true] at hp
    cases hp
    exact .inl ⟨rfl, hfixed⟩

end

/-- A text without issues is accepted exactly if no label is predefined or stands too far behind, and otherwise rejected
at such a label. Every generated jump target that it loads is a label and no variable. -/
theorem lint_sound {source : Text} (h : lint source = []) :
    let lines := contents source
    ((∃ p, assemble source = .ok p) ↔
      ∀ before name after, lines = before ++ labelText name :: after →
        name ∉ predefined.map Prod.fst ∧ before.countP isInstruction ≤ 32767) ∧
    (∀ e, assemble source = .error e → ∃ before name after, lines = before ++ labelText name :: after ∧
      e.line = before.length + 1 ∧
      (e.problem = .duplicateLabel name ∧ name ∈ predefined.map Prod.fst ∨
        e.problem = .labelBeyondRom name ∧ 32767 < before.countP isInstruction)) ∧
    ∀ stem ∈ [ascii "FALSE", ascii "CONTINUE"], ∀ digits : Text, digits ≠ [] → (∀ b ∈ digits, Text.isDigit b = true) →
      (64 :: (stem ++ digits)) ∈ lines →
      stem ++ digits ∉ variableNames lines ∧
      ∃ before after, lines = before ++ labelText (stem ++ digits) :: after ∧
        ∀ p, assemble source = .ok p → p.symbols[stem ++ digits]? = some (before.countP isInstruction).toUInt16 := by
  intro lines
  obtain ⟨s, hpassed, hdeclared⟩ := Lint.passed_of_lint h
  refine ⟨?_, ?_, ?_⟩
  · rw [assemble_ok_iff]
    constructor
    · intro hg before name after hlines
      have hlabel := hg before (labelText name) after hlines (List.cons_ne_nil _ _)
      obtain ⟨name', hname', -, hfree, -, hcount⟩ := (grammatical_label_iff rfl).mp hlabel
      rw [labelText_injective hname']
      exact ⟨hfree, hcount⟩
    · intro hlabels before text after hlines hne
      refine grammatical_of_passed hpassed hlines hne ?_
      rintro name rfl
      exact hlabels before name after hlines
  · intro e he
    obtain ⟨bound, code, hok, -⟩ | ⟨before, text, after, table, p, hlines, hlabel, hbound, hp, herror, -⟩ |
      ⟨e', -, -, hleast⟩ := assemble_cases source
    · rw [he] at hok
      cases hok
    · rw [he] at herror
      cases herror
      obtain ⟨name, rfl, hproblem⟩ := bindLabel_error_of_passed hpassed hlines hlabel hbound hp
      exact ⟨before, name, after, hlines, rfl, hproblem⟩
    · obtain ⟨before, text, after, hlines, -, hi, hbroken⟩ := hleast.1
      obtain ⟨i, hspells⟩ := hpassed.instructions text (by simp [hlines]) hi
      exact absurd (.instruction hspells) hbroken
  · intro stem hstem digits hne hdigits hload
    have hgenerated := Lint.isGenerated_append hstem hne hdigits
    have hlabel := (hpassed.declared _).mp (hdeclared _ (hpassed.referenced _ hgenerated hload))
    refine ⟨fun hm => (mem_variableNames.mp hm).2.2.2 hlabel, ?_⟩
    obtain ⟨before, after, hlines⟩ := List.append_of_mem hlabel
    exact ⟨before, after, hlines, fun p hp => ((resolved_of_assemble hp).label before _ after hlines).2⟩

/-- White space and remarks do not matter: the linter finds nothing, and the target of the jump is a label. -/
theorem lint_sound_sample :
    let source := ascii "  @FALSE0 // leave\nD ; JEQ\n@i\n\tM = 1\n(FALSE0)\n"
    lint source = [] ∧ (∃ p, assemble source = .ok p) ∧ variableNames (contents source) = [ascii "i"] ∧
      ascii "FALSE0" ∉ variableNames (contents source) := by
  intro source
  have hlint : lint source = [] := by decide +kernel
  have hcontents : contents source =
      [ascii "@FALSE0", ascii "D;JEQ", ascii "@i", ascii "M=1", labelText (ascii "FALSE0"), []] := by decide +kernel
  obtain ⟨haccepts, -, htargets⟩ := lint_sound hlint
  refine ⟨hlint, haccepts.mpr ?_, by decide +kernel, ?_⟩
  · intro before name after hlines
    have hname : labelText name = labelText (ascii "FALSE0") := by
      have hm : labelText name ∈ contents source := by rw [hlines]; simp
      rw [hcontents] at hm
      simpa [labelText, Line.toText, ascii] using hm
    have hlength := congrArg List.length hlines
    have hcount := List.countP_le_length (p := isInstruction) (l := before)
    rw [hcontents, List.length_append] at hlength
    simp only [List.length_cons, List.length_nil] at hlength
    rw [labelText_injective hname]
    exact ⟨by decide, by omega⟩
  · have hdigits : ∀ b ∈ ([48] : Text), Text.isDigit b = true := by simp [Text.isDigit]
    exact (htargets (ascii "FALSE") (by decide) [48] (by decide) hdigits (by rw [hcontents]; decide)).1

/-- A label behind one instruction more than can be addressed. -/
def farLabel : List Line := List.replicate 32768 (.instruction (.compute [] .zero none)) ++ [.label (ascii "END")]

theorem mem_farLabel {l : Line} (h : l ∈ farLabel) :
    l = .instruction (.compute [] .zero none) ∨ l = .label (ascii "END") := by
  obtain h | h := List.mem_append.mp h
  · exact .inl (List.eq_of_mem_replicate h)
  · exact .inr (List.mem_singleton.mp h)

theorem farLabel_eq_append {pre post : List Line} {name : Text} (h : farLabel = pre ++ .label name :: post) :
    pre.length = 32768 ∧ name = ascii "END" := by
  obtain ⟨-, rfl, hname⟩ | ⟨rest, -, hrest⟩ := append_singleton_eq.mp h
  · exact ⟨List.length_replicate, Line.label.inj hname⟩
  · have hm : Line.label name ∈ List.replicate 32768 (.instruction (.compute [] .zero none)) := by rw [hrest]; simp
    cases List.eq_of_mem_replicate hm

theorem length_instructions_replicate (i : Instruction) :
    ∀ n : Nat, (instructions (List.replicate n (.instruction i))).length = n
  | 0 => rfl
  | n + 1 => congrArg (· + 1) (length_instructions_replicate i n)

/-- The linter lets both kinds of labels pass that only the assembler rejects. -/
theorem lint_misses_labels :
    (lint (ascii "(SP)\n") = [] ∧ assemble (ascii "(SP)\n") = .error ⟨1, .duplicateLabel (ascii "SP")⟩) ∧
    lint (render farLabel) = [] ∧ assemble (render farLabel) = .error ⟨32769, .labelBeyondRom (ascii "END")⟩ := by
  have hlegal : ∀ l ∈ farLabel, l.Legal := by
    intro l hl
    obtain rfl | rfl := mem_farLabel hl
    · exact List.nodup_nil
    · rfl
  have hnodup : (farLabel.filterMap Line.declares?).Nodup := by
    rw [farLabel, List.filterMap_append, List.filterMap_replicate_of_none rfl]
    exact List.nodup_singleton _
  refine ⟨⟨by decide +kernel, by rfl⟩, lint_render hlegal hnodup ?_, ?_⟩
  · intro name _ hl
    obtain hl | hl := mem_farLabel hl <;> cases hl
  · have hfree : ∀ name, .label name ∈ farLabel → name ∉ predefined.map Prod.fst := by
      intro name hl
      obtain hl | hl := mem_farLabel hl
      · cases hl
      · cases hl
        decide
    obtain ⟨p, hp, hcount⟩ | ⟨pre, name, post, hlines, -, herror⟩ := assemble_render_cases hlegal hnodup hfree
    · have hle := hcount _ _ [] rfl
      rw [length_instructions_replicate] at hle
      exact absurd hle (by decide)
    · obtain ⟨hlength, rfl⟩ := farLabel_eq_append hlines
      rw [herror, hlength]

end HackStack
