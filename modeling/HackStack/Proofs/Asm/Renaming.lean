import HackStack.Proofs.Asm.Addresses
import HackStack.Proofs.Text.Words
import Mathlib.Data.Set.Function

/-!
# Renamed symbols

The assembler asks of a symbol only whether it is legal, predefined, or the same as another one. So a text in which
labels and variables have got other names, different ones for different symbols, is accepted with the same words, and
the addresses are found under the new names.
-/

namespace HackStack.Asm

/-! ## Renaming -/

def Program.ownSymbols (p : Program) : Set Text := {name | name ∉ predefined.map Prod.fst ∧ (p.symbols[name]?).isSome}

section
variable (f : Text → Text)

/-- A symbol under a renaming. The predefined ones keep their names. -/
def renameSymbol (name : Text) : Text := if (predefined.map Prod.fst).contains name then name else f name

def renameContent : Text → Text
  | 64 :: name => if isSymbol name then 64 :: renameSymbol f name else 64 :: name
  | 40 :: body => labelText (renameSymbol f body.dropLast)
  | text => text

def renameInstruction : Instruction → Instruction
  | .load (.symbol name) => .load (.symbol (renameSymbol f name))
  | i => i

theorem renameContent_label (name : Text) : renameContent f (labelText name) = labelText (renameSymbol f name) := by
  simp [labelText, Line.toText, renameContent]

theorem renameContent_load {name : Text} (h : isSymbol name = true) :
    renameContent f (64 :: name) = 64 :: renameSymbol f name := if_pos h

theorem renameContent_eq {text : Text} (hload : loadedSymbol? text = none) (hlabel : isLabel text = false) :
    renameContent f text = text := by
  unfold renameContent
  split
  · rename_i name
    by_cases h : isSymbol name = true
    · simp [loadedSymbol?, h] at hload
    · rw [if_neg h]
  · cases hlabel
  · rfl

theorem isLabel_renameContent (text : Text) : isLabel (renameContent f text) = isLabel text := by
  unfold renameContent
  split
  · split <;> rfl
  · rfl
  · rfl

theorem isInstruction_renameContent (text : Text) : isInstruction (renameContent f text) = isInstruction text := by
  unfold isInstruction
  rw [isLabel_renameContent]
  congr 2
  unfold renameContent
  split
  · split <;> rfl
  · rfl
  · rfl

theorem countP_rename (lines : List Text) :
    (lines.map (renameContent f)).countP isInstruction = lines.countP isInstruction := by
  rw [List.countP_map]
  congr 1
  funext text
  exact isInstruction_renameContent f text

theorem instructionLines_rename (lines : List Text) : instructionLines (lines.map (renameContent f)) =
    (instructionLines lines).map (Prod.map (renameContent f) id) := by
  unfold instructionLines
  rw [List.zipIdx_map, List.filter_map]
  congr 1
  apply List.filter_congr
  intro line _
  exact isInstruction_renameContent f line.1

end

/-! ## Lines of an accepted text -/

section
variable {lines : List Text} {p : Program} (hp : Resolved lines p)
variable (hg : ∀ before text after, lines = before ++ text :: after → text ≠ [] → Grammatical before text)
include hp hg

theorem label_cases_own {text : Text} (hm : text ∈ lines) (hlabel : isLabel text = true) :
    ∃ name, text = labelText name ∧ isSymbol name = true ∧ name ∈ p.ownSymbols := by
  obtain ⟨before, after, rfl⟩ := List.append_of_mem hm
  have hne : text ≠ [] := by rintro rfl; cases hlabel
  obtain ⟨name, rfl, hsymbol, hfree, -⟩ := (grammatical_label_iff hlabel).mp (hg before text after rfl hne)
  have haddress := (hp.label before name after rfl).2
  exact ⟨name, rfl, hsymbol, hfree, by rw [haddress]; rfl⟩

omit hg in
theorem load_own {name : Text} (hm : 64 :: name ∈ lines) (hsymbol : isSymbol name = true)
    (hfree : name ∉ predefined.map Prod.fst) : name ∈ p.ownSymbols := by
  obtain ⟨k, n, hk⟩ := mem_instructionLines hm rfl
  obtain ⟨address, haddress, -⟩ := hp.word_of_symbol hk hsymbol
  exact ⟨hfree, by rw [haddress]; rfl⟩

theorem isSymbol_own {name : Text} (h : name ∈ p.ownSymbols) : isSymbol name = true := by
  obtain ⟨address, haddress⟩ := Option.isSome_iff_exists.mp h.2
  obtain hpre | hlabel | hvariable := hp.only name address haddress
  · exact absurd hpre h.1
  · obtain ⟨other, heq, hsymbol, -⟩ := label_cases_own hp hg hlabel (isLabel_labelText name)
    rw [labelText_injective heq]
    exact hsymbol
  · exact (mem_variableNames.mp hvariable).2.1

end

/-- Whether a renaming gives the labels and variables of a program legal names of their own. -/
structure Renames (f : Text → Text) (p : Program) : Prop where
  injective : Set.InjOn f p.ownSymbols
  legal : ∀ name ∈ p.ownSymbols, isSymbol (f name) = true
  free : ∀ name ∈ p.ownSymbols, f name ∉ predefined.map Prod.fst

theorem eraseDups_map {f : Text → Text} {names : List Text} (h : Set.InjOn f {name | name ∈ names}) :
    (names.map f).eraseDups = names.eraseDups.map f := by
  induction names using List.reverseRecOn with
  | nil => rfl
  | append_singleton names name ih =>
    have ih := ih (h.mono fun other hother => List.mem_append_left _ hother)
    have hmem : f name ∈ names.eraseDups.map f ↔ name ∈ names.eraseDups := by
      refine ⟨fun hm => ?_, List.mem_map_of_mem⟩
      obtain ⟨other, hother, heq⟩ := List.mem_map.mp hm
      have hother' := List.mem_eraseDups.mp hother
      rw [← h (List.mem_append_left _ hother') (by simp) heq]
      exact hother
    rw [List.map_append, List.map_singleton, eraseDups_append_singleton, eraseDups_append_singleton, ih]
    by_cases hm : name ∈ names.eraseDups
    · rw [if_pos (hmem.mpr hm), if_pos hm]
    · rw [if_neg (fun h => hm (hmem.mp h)), if_neg hm, List.map_append, List.map_singleton]

section
variable {f : Text → Text} {p : Program}

theorem renameSymbol_own {name : Text} (h : name ∈ p.ownSymbols) : renameSymbol f name = f name :=
  if_neg fun hm => h.1 (List.contains_iff_mem.mp hm)

theorem renameSymbol_predefined {name : Text} (h : name ∈ predefined.map Prod.fst) : renameSymbol f name = name :=
  if_pos (List.contains_iff_mem.mpr h)

variable (hf : Renames f p) {lines : List Text} (hp : Resolved lines p)
include hf hp

theorem isSymbol_renameSymbol {name : Text} (hm : 64 :: name ∈ lines) (hsymbol : isSymbol name = true) :
    isSymbol (renameSymbol f name) = true := by
  by_cases hfree : name ∈ predefined.map Prod.fst
  · rw [renameSymbol_predefined hfree]
    exact hsymbol
  · have hown := load_own hp hm hsymbol hfree
    rw [renameSymbol_own hown]
    exact hf.legal name hown

theorem loadedSymbol?_renameContent {text : Text} (hm : text ∈ lines) :
    loadedSymbol? (renameContent f text) = (loadedSymbol? text).map (renameSymbol f) := by
  cases hload : loadedSymbol? text with
  | some name =>
    obtain ⟨rfl, hsymbol⟩ := loadedSymbol?_eq_some.mp hload
    rw [renameContent_load f hsymbol, Option.map_some, loadedSymbol?_eq_some]
    exact ⟨rfl, isSymbol_renameSymbol hf hp hm hsymbol⟩
  | none =>
    by_cases hlabel : isLabel text = true
    · obtain ⟨body, rfl⟩ := isLabel_iff.mp hlabel
      rfl
    · rw [renameContent_eq f hload (by simpa using hlabel), hload]
      rfl

theorem spells_renameContent {text : Text} {i : Instruction} (hm : text ∈ lines) (h : Spells text i) :
    Spells (renameContent f text) (renameInstruction f i) := by
  have hlabel := isLabel_of_isInstruction (isInstruction_of_spells h)
  have hload := loadedSymbol?_of_spells h
  match i, h with
  | .load (.constant n), h =>
    rw [renameContent_eq f hload hlabel]
    exact h
  | .compute dest comp jump, h =>
    rw [renameContent_eq f hload hlabel]
    exact h
  | .load (.symbol name), .symbol hsymbol =>
    rw [renameContent_load f hsymbol]
    exact .symbol (isSymbol_renameSymbol hf hp hm hsymbol)

variable (hg : ∀ before text after, lines = before ++ text :: after → text ≠ [] → Grammatical before text)
include hg

theorem mem_label_rename {part : List Text} (hpart : part ⊆ lines) {name : Text} (hown : name ∈ p.ownSymbols) :
    labelText (f name) ∈ part.map (renameContent f) ↔ labelText name ∈ part := by
  constructor
  · intro hm
    obtain ⟨text, htext, heq⟩ := List.mem_map.mp hm
    have hlabel : isLabel text = true := by rw [← isLabel_renameContent f, heq]; rfl
    obtain ⟨other, rfl, -, hother⟩ := label_cases_own hp hg (hpart htext) hlabel
    rw [renameContent_label, renameSymbol_own hother] at heq
    rw [hf.injective hown hother (labelText_injective heq).symm]
    exact htext
  · intro hm
    have hname := renameContent_label f name
    rw [renameSymbol_own hown] at hname
    rw [← hname]
    exact List.mem_map_of_mem hm

theorem variableNames_rename : variableNames (lines.map (renameContent f)) = (variableNames lines).map f := by
  have hloaded : (lines.map (renameContent f)).filterMap loadedSymbol? =
      (lines.filterMap loadedSymbol?).map (renameSymbol f) := by
    rw [List.filterMap_map, List.map_filterMap]
    apply List.filterMap_congr
    intro text hm
    exact loadedSymbol?_renameContent hf hp hm
  have hown : ∀ name ∈ lines.filterMap loadedSymbol?, name ∉ predefined.map Prod.fst → name ∈ p.ownSymbols := by
    intro name hname hfree
    obtain ⟨text, hm, hload⟩ := List.mem_filterMap.mp hname
    obtain ⟨rfl, hsymbol⟩ := loadedSymbol?_eq_some.mp hload
    exact load_own hp hm hsymbol hfree
  have hnew : ∀ name ∈ lines.filterMap loadedSymbol?,
      decide (renameSymbol f name ∉ predefined.map Prod.fst ∧
        labelText (renameSymbol f name) ∉ lines.map (renameContent f)) =
      decide (name ∉ predefined.map Prod.fst ∧ labelText name ∉ lines) := by
    intro name hname
    rw [decide_eq_decide]
    by_cases hfree : name ∈ predefined.map Prod.fst
    · rw [renameSymbol_predefined hfree]
      simp [hfree]
    · have hname := hown name hname hfree
      rw [renameSymbol_own hname, mem_label_rename hf hp hg (List.Subset.refl lines) hname]
      simp [hfree, hf.free name hname]
  have hkept : ∀ name ∈ (lines.filterMap loadedSymbol?).filter fun name =>
      decide (name ∉ predefined.map Prod.fst ∧ labelText name ∉ lines), name ∈ p.ownSymbols := by
    intro name hname
    obtain ⟨hname, hnew⟩ := List.mem_filter.mp hname
    exact hown name hname (of_decide_eq_true hnew).1
  unfold variableNames
  rw [hloaded, List.filter_map, Function.comp_def, List.filter_congr hnew,
    List.map_congr_left fun name hname => renameSymbol_own (hkept name hname)]
  exact eraseDups_map (hf.injective.mono hkept)

theorem grammatical_rename {before after : List Text} {text : Text} (hlines : lines = before ++ text :: after)
    (hne : text ≠ []) : Grammatical (before.map (renameContent f)) (renameContent f text) := by
  have hm : text ∈ lines := by rw [hlines]; simp
  have hpart : before ⊆ lines := by rw [hlines]; simp
  cases hg before text after hlines hne with
  | @label name hsymbol hfree hnew hcount =>
    obtain ⟨other, heq, -, hown⟩ := label_cases_own hp hg hm (isLabel_labelText name)
    rw [← labelText_injective heq] at hown
    rw [renameContent_label, renameSymbol_own hown]
    refine .label (hf.legal name hown) (hf.free name hown) ?_ ?_
    · rw [mem_label_rename hf hp hg hpart hown]
      exact hnew
    · rw [countP_rename]
      exact hcount
  | instruction hspells => exact .instruction (spells_renameContent hf hp hm hspells)

/-! ## Programs of renamed lines -/

variable {p' : Program} (hp' : Resolved (lines.map (renameContent f)) p')
include hp'

theorem symbol_rename {name : Text} {address : UInt16} (h : p.symbols[name]? = some address) :
    p'.symbols[renameSymbol f name]? = some address := by
  by_cases hfree : name ∈ predefined.map Prod.fst
  · obtain ⟨entry, hentry, rfl⟩ := List.mem_map.mp hfree
    rw [renameSymbol_predefined hfree, hp'.fixed entry hentry, ← hp.fixed entry hentry, h]
  · have hown : name ∈ p.ownSymbols := ⟨hfree, by rw [h]; rfl⟩
    rw [renameSymbol_own hown]
    obtain hpre | hlabel | hvariable := hp.only name address h
    · exact absurd hpre hfree
    · obtain ⟨before, after, rfl⟩ := List.append_of_mem hlabel
      have haddress := (hp'.label (before.map (renameContent f)) (f name) (after.map (renameContent f)) (by
        rw [List.map_append, List.map_cons, renameContent_label, renameSymbol_own hown])).2
      rw [haddress, countP_rename, ← h, (hp.label before name after rfl).2]
    · obtain ⟨j, hj⟩ := List.mem_iff_getElem?.mp hvariable
      have hj' : (variableNames (lines.map (renameContent f)))[j]? = some (f name) := by
        rw [variableNames_rename hf hp hg, List.getElem?_map, hj]
        rfl
      rw [hp'.allotted j _ hj', ← h, hp.allotted j name hj]

theorem symbol_of_rename {name' : Text} {address : UInt16} (h : p'.symbols[name']? = some address) :
    ∃ name, p.symbols[name]? = some address ∧ renameSymbol f name = name' := by
  obtain ⟨name, hsome, rfl⟩ : ∃ name, (p.symbols[name]?).isSome = true ∧ renameSymbol f name = name' := by
    obtain hpre | hlabel | hvariable := hp'.only name' address h
    · obtain ⟨entry, hentry, rfl⟩ := List.mem_map.mp hpre
      exact ⟨entry.1, by rw [hp.fixed entry hentry]; rfl, renameSymbol_predefined hpre⟩
    · obtain ⟨text, htext, heq⟩ := List.mem_map.mp hlabel
      have hislabel : isLabel text = true := by rw [← isLabel_renameContent f, heq]; rfl
      obtain ⟨name, rfl, -, hown⟩ := label_cases_own hp hg htext hislabel
      rw [renameContent_label] at heq
      exact ⟨name, hown.2, labelText_injective heq⟩
    · rw [variableNames_rename hf hp hg] at hvariable
      obtain ⟨name, hname, rfl⟩ := List.mem_map.mp hvariable
      obtain ⟨j, hj⟩ := List.mem_iff_getElem?.mp hname
      have hsome : (p.symbols[name]?).isSome = true := by rw [hp.allotted j name hj]; rfl
      exact ⟨name, hsome, renameSymbol_own ⟨(mem_variableNames.mp hname).2.2.1, hsome⟩⟩
  obtain ⟨address', haddress⟩ := Option.isSome_iff_exists.mp hsome
  rw [symbol_rename hf hp hg hp' haddress] at h
  exact ⟨name, h ▸ haddress, rfl⟩

theorem encodes_rename {i : Instruction} {word : UInt16} (h : Encodes p.symbols i word) :
    Encodes p'.symbols (renameInstruction f i) word := by
  match i, h with
  | .load (.constant n), h => exact h
  | .compute dest comp jump, h => exact h
  | .load (.symbol name), h => exact symbol_rename hf hp hg hp' h

theorem words_rename : p'.words = p.words := by
  apply Array.ext_getElem?
  intro k
  cases hk : (instructionLines lines)[k]? with
  | none =>
    have hend := List.getElem?_eq_none_iff.mp hk
    have hlength := hp'.length_eq
    rw [instructionLines_rename, List.length_map] at hlength
    rw [Array.getElem?_eq_none (hlength ▸ hend), Array.getElem?_eq_none (hp.length_eq ▸ hend)]
  | some line =>
    obtain ⟨text, n⟩ := line
    obtain ⟨i, word, hword, hspells, hencodes⟩ := hp.word_of_line hk
    have hk' : (instructionLines (lines.map (renameContent f)))[k]? = some (renameContent f text, n) := by
      rw [instructionLines_rename, List.getElem?_map, hk]
      rfl
    obtain ⟨i', word', hword', hspells', hencodes'⟩ := hp'.word_of_line hk'
    have hm : text ∈ lines := List.fst_mem_of_mem_zipIdx (List.mem_filter.mp (List.mem_of_getElem? hk)).1
    rw [hspells'.unique (spells_renameContent hf hp hm hspells)] at hencodes'
    rw [hword, hword', hencodes'.unique (encodes_rename hf hp hg hp' hencodes)]

omit hf hg in
theorem numbers_rename : p'.lines = p.lines := by
  apply Array.toList_inj.mp
  rw [hp'.numbers, hp.numbers, instructionLines_rename, List.map_map]
  rfl

end

/-! ## Renamed texts -/

/-- A line with its symbol renamed. Other lines and all remarks stay as they are. -/
def renameLine (f : Text → Text) (line : Text) : Text :=
  if renameContent f (content line) = content line then line
  else renameContent f (content line) ++ line.drop (Text.stripRemark line).length

def renameText (f : Text → Text) (source : Text) : Text :=
  Text.join [Text.lineFeed] ((Text.lines source).map (renameLine f))

section
variable {f : Text → Text} {p : Program} (hf : Renames f p) {source : Text} (hp : Resolved (contents source) p)
variable (hg : ∀ before text after, contents source = before ++ text :: after → text ≠ [] → Grammatical before text)
include hf hp hg

theorem all_isGraphic_renameContent {text : Text} (hm : text ∈ contents source) (h : renameContent f text ≠ text) :
    (renameContent f text).all Text.isGraphic = true := by
  by_cases hlabel : isLabel text = true
  · obtain ⟨name, rfl, -, hown⟩ := label_cases_own hp hg hm hlabel
    rw [renameContent_label, renameSymbol_own hown]
    exact all_isGraphic_line (l := .label (f name)) (hf.legal name hown) (by simp)
  · cases hload : loadedSymbol? text with
    | none => exact absurd (renameContent_eq f hload (by simpa using hlabel)) h
    | some name =>
      obtain ⟨rfl, hsymbol⟩ := loadedSymbol?_eq_some.mp hload
      rw [renameContent_load f hsymbol, List.all_cons, all_isGraphic_of_isSymbol (isSymbol_renameSymbol hf hp hm hsymbol)]
      rfl

theorem renameLine_spec {line : Text} (hm : line ∈ Text.lines source) :
    Text.lineFeed ∉ renameLine f line ∧ content (renameLine f line) = renameContent f (content line) := by
  have hfeed : Text.lineFeed ∉ line := Text.mark_not_mem_splitAt hm
  unfold renameLine
  by_cases h : renameContent f (content line) = content line
  · rw [if_pos h, h]
    exact ⟨hfeed, rfl⟩
  · have hgraphic := all_isGraphic_renameContent hf hp hg (List.mem_map_of_mem hm) h
    have hslash : 47 ∉ renameContent f (content line) := fun hm =>
      absurd (List.all_eq_true.mp hgraphic 47 hm) (by decide)
    rw [if_neg h]
    constructor
    · rw [List.mem_append, not_or]
      exact ⟨Text.lineFeed_not_mem_unbroken (Text.unbroken_graphic hgraphic), fun hm => hfeed (List.mem_of_mem_drop hm)⟩
    · have hstrip := Text.stripRemark_append_remark (Text.stripRemark_drop line) hslash
      rw [content, hstrip]
      exact Text.unbroken_iff.mp (Text.unbroken_graphic hgraphic)

theorem contents_renameText : contents (renameText f source) = (contents source).map (renameContent f) := by
  have hne : (Text.lines source).map (renameLine f) ≠ [] := by
    rw [ne_eq, List.map_eq_nil_iff]
    exact Text.splitAt_ne_nil Text.lineFeed source
  have hfeed : ∀ line ∈ (Text.lines source).map (renameLine f), Text.lineFeed ∉ line :=
    List.forall_mem_map.mpr fun line hm => (renameLine_spec hf hp hg hm).1
  unfold contents renameText
  rw [Text.lines_join hne hfeed, List.map_map, List.map_map]
  apply List.map_congr_left
  intro line hm
  exact (renameLine_spec hf hp hg hm).2

end

/-- A text with its labels and variables renamed is accepted, with the same words and line numbers, and its table has
the same addresses under the new names. White space and remarks may stand as they like in it. -/
theorem assembly_renamed {source : Text} {p : Program} (h : assemble source = .ok p) {f : Text → Text}
    (hf : Renames f p) :
    contents (renameText f source) = (contents source).map (renameContent f) ∧
    ∀ source', contents source' = (contents source).map (renameContent f) →
      ∃ p', assemble source' = .ok p' ∧ p'.words = p.words ∧ p'.lines = p.lines ∧
        ∀ name' address, p'.symbols[name']? = some address ↔
          ∃ name, p.symbols[name]? = some address ∧ renameSymbol f name = name' := by
  have hp := resolved_of_assemble h
  have hg := assemble_ok_iff.mp ⟨p, h⟩
  refine ⟨contents_renameText hf hp hg, fun source' hcontents => ?_⟩
  have haccepted : ∃ p', assemble source' = .ok p' := by
    rw [assemble_ok_iff, hcontents]
    intro before text after hlines hne
    obtain ⟨before, rest, hsource, rfl, hrest⟩ := List.map_eq_append_iff.mp hlines
    obtain ⟨text, after, rfl, rfl, rfl⟩ := List.map_eq_cons_iff.mp hrest
    refine grammatical_rename hf hp hg hsource ?_
    rintro rfl
    exact hne rfl
  obtain ⟨p', hassemble⟩ := haccepted
  have hp' := resolved_of_assemble hassemble
  rw [hcontents] at hp'
  refine ⟨p', hassemble, words_rename hf hp hg hp', numbers_rename hp hp', fun name' address => ?_⟩
  constructor
  · exact symbol_of_rename hf hp hg hp'
  · rintro ⟨name, hname, rfl⟩
    exact symbol_rename hf hp hg hp' hname

theorem renames_underscore {source : Text} {p : Program} (h : assemble source = .ok p) :
    Renames (fun name => 95 :: name) p where
  injective := fun _ _ _ _ heq => (List.cons.inj heq).2
  legal := by
    intro name hname
    have hsymbol := isSymbol_own (resolved_of_assemble h) (assemble_ok_iff.mp ⟨p, h⟩) hname
    unfold isSymbol at hsymbol ⊢
    split at hsymbol
    · cases hsymbol
    · rw [Bool.and_eq_true] at hsymbol
      rw [List.all_cons, hsymbol.2]
      rfl
  free := by
    intro name _ hm
    have hheads : ∀ name ∈ predefined.map Prod.fst, name.head? ≠ some 95 := by decide
    exact hheads _ hm rfl

/-- The label, the variable and the remark behind it; the predefined symbol stays. -/
theorem assembly_renamed_sample :
    ∃ p p', assemble (ascii "@x // first\n (L)\n@R1\n@L\n") = .ok p ∧ Renames (fun name => 95 :: name) p ∧
      assemble (ascii "@_x// first\n(_L)\n@R1\n@_L\n") = .ok p' ∧ p'.words = p.words ∧
      p'.symbols[ascii "_L"]? = some 1 := by
  obtain ⟨p, h, hL⟩ : ∃ p, assemble (ascii "@x // first\n (L)\n@R1\n@L\n") = .ok p ∧ p.symbols[ascii "L"]? = some 1 :=
    ok_of_any (by decide +kernel)
  have htext : renameText (fun name => 95 :: name) (ascii "@x // first\n (L)\n@R1\n@L\n") =
      ascii "@_x// first\n(_L)\n@R1\n@_L\n" := by decide +kernel
  have hf := renames_underscore h
  obtain ⟨hcontents, hall⟩ := assembly_renamed h hf
  obtain ⟨p', h', hwords, -, hsymbols⟩ := hall _ hcontents
  exact ⟨p, p', h, hf, htext ▸ h', hwords, (hsymbols _ _).mpr ⟨ascii "L", hL, by decide⟩⟩

end HackStack.Asm
