import HackStack.Proofs.Asm.Addresses

/-!
# Rendered lines in the assembler

Legal lines whose labels are declared once and are not predefined break no rule of the grammar, except that a label may
stand too far behind. So their text is accepted, or its error is that of the first label beyond the addresses that can
be loaded.
-/

namespace HackStack.Asm

/-- A line as the assembler sees it, without its remark. -/
def Line.bare : Line → Text
  | .remark _ => []
  | l => l.toText

section
variable {l : Line} {name : Text}

theorem toText_eq_labelText : l.toText = labelText name ↔ l = .label name := by
  cases l with
  | remark text => simp [labelText, Line.toText, ascii]
  | label other =>
    rw [Line.label.injEq]
    exact ⟨labelText_injective, congrArg labelText⟩
  | instruction i =>
    simp only [reduceCtorEq, iff_false]
    intro h
    have hlabel := isLabel_instruction i
    rw [show i.toText = labelText name from h, isLabel_labelText] at hlabel
    cases hlabel

theorem bare_eq_labelText : l.bare = labelText name ↔ l = .label name := by
  cases l with
  | remark text => simp [labelText, Line.toText, Line.bare]
  | label other => exact toText_eq_labelText (l := .label other)
  | instruction i => exact toText_eq_labelText (l := .instruction i)

theorem all_isGraphic_bare (h : l.Legal) : l.bare.all Text.isGraphic = true := by
  cases l with
  | remark text => rfl
  | label other => exact all_isGraphic_line h (by simp)
  | instruction i => exact all_isGraphic_instruction h

theorem stripRemark_toText (h : l.Legal) : Text.stripRemark l.toText = l.bare := by
  cases l with
  | remark text =>
    have htext : (Line.remark text).toText = 47 :: 47 :: 32 :: text := rfl
    rw [htext, Text.stripRemark, Text.stripRemark.go]
    rfl
  | label _ | instruction _ =>
    refine Text.stripRemark_go_of_not_mem [] fun hm => ?_
    exact absurd (List.all_eq_true.mp (all_isGraphic_bare h) 47 hm) (by decide)

theorem content_toText (h : l.Legal) : content l.toText = l.bare := by
  unfold content
  rw [stripRemark_toText h]
  exact Text.unbroken_iff.mp (Text.unbroken_graphic (all_isGraphic_bare h))

theorem isLabel_bare : isLabel l.bare = true ↔ ∃ name, l = .label name := by
  cases l with
  | remark text => simp [Line.bare, isLabel]
  | label other => simp [Line.bare, Line.toText, isLabel]
  | instruction i => simp [Line.bare, Line.toText, isLabel_instruction]

theorem isInstruction_bare : isInstruction l.bare = true ↔ ∃ i, l = .instruction i := by
  cases l with
  | remark text => simp [Line.bare, isInstruction]
  | label other => simp [Line.bare, Line.toText, isInstruction, isLabel]
  | instruction i => simp [Line.bare, Line.toText, isInstruction, isLabel_instruction, instructionText_ne_nil]

theorem load_of_bare (h : l.Legal) (hname : isSymbol name = true) (hl : l.bare = 64 :: name) :
    l = .instruction (.load (.symbol name)) := by
  have hi : isInstruction l.bare = true := by rw [hl]; rfl
  obtain ⟨i, rfl⟩ := isInstruction_bare.mp hi
  have hread := ofText_toText h
  rw [show i.toText = 64 :: name from hl, ofText_of_spells (.symbol hname), Except.ok.injEq] at hread
  rw [hread]

end

theorem countP_map_lines {f : Line → Text} {q : Text → Bool} : ∀ {ls : List Line},
    (∀ l ∈ ls, q (f l) = true ↔ ∃ i, l = .instruction i) → (ls.map f).countP q = (instructions ls).length
  | [], _ => rfl
  | l :: ls, hq => by
    rw [List.forall_mem_cons] at hq
    rw [List.map_cons, List.countP_cons, countP_map_lines hq.2]
    cases l <;> simp [hq.1, instructions]

theorem contents_render {ls : List Line} (h : ∀ l ∈ ls, l.Legal) :
    contents (render ls) = ls.map Line.bare ++ [[]] := by
  unfold contents
  rw [lines_render h, List.map_append, List.map_map]
  congr 1
  apply List.map_congr_left
  intro l hl
  exact content_toText (h l hl)

theorem contents_instruction {i : Instruction} (h : i.Legal) : contents i.toText = [i.toText] := by
  have hfeed : Text.lineFeed ∉ i.toText := lineFeed_not_mem (l := .instruction i) h
  unfold contents Text.lines
  rw [Text.splitAt_of_not_mem hfeed, List.map_singleton, content_graphic (all_isGraphic_instruction h)]

theorem map_eq_append_label {f : Line → Text} (hf : ∀ {l : Line} {name : Text}, f l = labelText name ↔ l = .label name)
    {ls : List Line} {before : List Text} {name : Text} :
    (∃ after, ls.map f ++ [[]] = before ++ labelText name :: after) ↔
      ∃ pre post, ls = pre ++ .label name :: post ∧ before = pre.map f := by
  constructor
  · rintro ⟨after, h⟩
    obtain ⟨-, -, hnil⟩ | ⟨rest, -, h⟩ := append_singleton_eq.mp h
    · cases hnil
    · obtain ⟨pre, tail, rfl, rfl, htail⟩ := List.map_eq_append_iff.mp h
      obtain ⟨l, post, rfl, hl, -⟩ := List.map_eq_cons_iff.mp htail
      exact ⟨pre, post, by rw [hf.mp hl], rfl⟩
  · rintro ⟨pre, post, rfl, rfl⟩
    exact ⟨post.map f ++ [[]], by simp [hf.mpr rfl]⟩

section
variable {ls : List Line} (hlegal : ∀ l ∈ ls, l.Legal)
include hlegal

theorem mem_contents_render {text : Text} (hne : text ≠ []) :
    text ∈ contents (render ls) ↔ ∃ l ∈ ls, l.bare = text := by
  rw [contents_render hlegal, List.mem_append, List.mem_map, List.mem_singleton]
  exact or_iff_left hne

theorem mem_contents_label {name : Text} : labelText name ∈ contents (render ls) ↔ .label name ∈ ls := by
  rw [mem_contents_render hlegal (by simp [labelText, Line.toText])]
  constructor
  · rintro ⟨l, hl, heq⟩
    exact bare_eq_labelText.mp heq ▸ hl
  · intro hl
    exact ⟨_, hl, bare_eq_labelText.mpr rfl⟩

theorem mem_contents_load {name : Text} (hname : isSymbol name = true) :
    (64 :: name) ∈ contents (render ls) ↔ .instruction (.load (.symbol name)) ∈ ls := by
  rw [mem_contents_render hlegal (List.cons_ne_nil _ _)]
  constructor
  · rintro ⟨l, hl, heq⟩
    exact load_of_bare (hlegal l hl) hname heq ▸ hl
  · intro hl
    exact ⟨_, hl, rfl⟩

theorem brokenInstructions_render : brokenLines BreaksInstruction (contents (render ls)) = ∅ := by
  rw [brokenLines_eq_empty_iff]
  rintro before text after hlines ⟨hi, hbroken⟩
  have hmem : text ∈ contents (render ls) := by rw [hlines]; simp
  have hne : text ≠ [] := by rintro rfl; cases hi
  obtain ⟨l, hl, rfl⟩ := (mem_contents_render hlegal hne).mp hmem
  obtain ⟨i, rfl⟩ := isInstruction_bare.mp hi
  exact hbroken (.instruction (ofText_eq_ok_iff.mp (ofText_toText (hlegal _ hl))))

end

theorem label_not_mem_of_nodup {pre post : List Line} {name : Text}
    (h : ((pre ++ .label name :: post).filterMap Line.declares?).Nodup) : .label name ∉ pre := by
  intro hm
  rw [List.filterMap_append, List.nodup_append] at h
  exact h.2.2 name (List.mem_filterMap.mpr ⟨_, hm, rfl⟩) name (by simp [Line.declares?]) rfl

theorem beyond_of_bindLabel {pre : List Line} {name : Text} {table : SymbolTable} {p : Problem}
    (hsymbol : isSymbol name = true) (hfree : name ∉ predefined.map Prod.fst) (hnew : .label name ∉ pre)
    (hbound : Bound (pre.map Line.bare) table)
    (h : bindLabel table ((pre.map Line.bare).countP isInstruction) (labelText name) = .error p) :
    p = .labelBeyondRom name ∧ 32767 < (instructions pre).length := by
  have hnone : table[name]? = none := by
    rw [hbound.eq_none_iff]
    refine ⟨hfree, fun hm => ?_⟩
    obtain ⟨l, hl, heq⟩ := List.mem_map.mp hm
    exact hnew (bare_eq_labelText.mp heq ▸ hl)
  rw [countP_map_lines fun l _ => isInstruction_bare, bindLabel_label hsymbol hnone] at h
  by_cases hlt : maxConstant < (instructions pre).length
  · rw [if_pos hlt, Except.error.injEq] at h
    exact ⟨h.symm, hlt⟩
  · rw [if_neg hlt] at h
    cases h

/-- The text of legal lines is accepted, or its error is at a label that is too far behind. -/
theorem assemble_render_cases {ls : List Line} (hlegal : ∀ l ∈ ls, l.Legal) (hnodup : (ls.filterMap Line.declares?).Nodup)
    (hfree : ∀ name, .label name ∈ ls → name ∉ predefined.map Prod.fst) :
    (∃ p, assemble (render ls) = .ok p ∧
        ∀ pre name post, ls = pre ++ .label name :: post → (instructions pre).length ≤ 32767) ∨
      ∃ pre name post, ls = pre ++ .label name :: post ∧ 32767 < (instructions pre).length ∧
        assemble (render ls) = .error ⟨pre.length + 1, .labelBeyondRom name⟩ := by
  obtain ⟨bound, code, hok, -⟩ | ⟨before, text, after, table, p, hlines, hlabel, hbound, hp, herror, -⟩ |
    ⟨e, -, -, hleast⟩ := assemble_cases (render ls)
  · refine .inl ⟨_, hok, ?_⟩
    rintro pre name post rfl
    have hplaced := (placed_append.mp (assemble_render hlegal hok).1).2
    have hle := hplaced.1.2
    rwa [Nat.zero_add] at hle
  · have hmem : text ∈ contents (render ls) := by rw [hlines]; simp
    have hne : text ≠ [] := by rintro rfl; cases hlabel
    obtain ⟨l, hl, rfl⟩ := (mem_contents_render hlegal hne).mp hmem
    obtain ⟨name, rfl⟩ := isLabel_bare.mp hlabel
    rw [contents_render hlegal] at hlines
    obtain ⟨pre, post, rfl, rfl⟩ := (map_eq_append_label bare_eq_labelText).mp ⟨after, hlines⟩
    -- The label is legal, not predefined and not declared before, so only its address can be wrong.
    obtain ⟨rfl, hlt⟩ := beyond_of_bindLabel (hlegal _ hl) (hfree name hl) (label_not_mem_of_nodup hnodup) hbound hp
    refine .inr ⟨pre, name, post, rfl, hlt, ?_⟩
    rw [herror, List.length_map]
  · exact absurd hleast (not_isLeast_of_empty (brokenInstructions_render hlegal))

/-- Legal lines in an accepted text are placed at the number of instructions before them. -/
theorem Resolved.placed {p : Program} {after : List Text} : ∀ {ls : List Line} {before : List Text},
    (∀ l ∈ ls, l.Legal) → Resolved (before ++ ls.map Line.bare ++ after) p →
      Placed p.words p.symbols.address (before.countP isInstruction) ls
  | [], _, _, _ => trivial
  | l :: ls, before, hlegal, h => by
    rw [List.forall_mem_cons] at hlegal
    have hlines : before ++ (l :: ls).map Line.bare ++ after = (before ++ [l.bare]) ++ ls.map Line.bare ++ after := by simp
    have hlines' : before ++ (l :: ls).map Line.bare ++ after = before ++ l.bare :: (ls.map Line.bare ++ after) := by simp
    have ih := Resolved.placed hlegal.2 (hlines ▸ h)
    rw [hlines'] at h
    rw [List.countP_append, List.countP_singleton] at ih
    cases l with
    | remark text => exact ih
    | label name =>
      obtain ⟨hle, haddress⟩ := h.label before name _ rfl
      have haddress' : (p.symbols.address name).toNat = before.countP isInstruction := by
        rw [SymbolTable.address, haddress]
        exact toNat_toUInt16 (by omega)
      exact ⟨⟨haddress', hle⟩, ih⟩
    | instruction i =>
      have hi : isInstruction (Line.instruction i).bare = true := isInstruction_bare.mpr ⟨i, rfl⟩
      obtain ⟨i', word, hword, hspells, hencodes⟩ := h.word_at hi
      rw [← (ofText_eq_ok_iff.mp (ofText_toText hlegal.1)).unique hspells] at hencodes
      rw [hencodes.word] at hword
      rw [if_pos hi] at ih
      exact ⟨hword, ih⟩

/-! ## Lines as they are written -/

def isCodeLine (line : Text) : Bool := isInstruction line && !Text.startsWith (ascii "//") line

theorem isCodeLine_toText {l : Line} (h : l.Legal) : isCodeLine l.toText = true ↔ ∃ i, l = .instruction i := by
  cases l with
  | remark text => simp [isCodeLine, Line.toText, Text.startsWith, ascii]
  | label name => simp [isCodeLine, Line.toText, isInstruction, isLabel]
  | instruction i =>
    have hremark : Text.startsWith (ascii "//") i.toText = false := by
      rw [Bool.eq_false_iff]
      intro hstarts
      obtain ⟨rest, hrest⟩ := List.isPrefixOf_iff_prefix.mp hstarts
      have hgraphic := all_isGraphic_instruction h
      rw [← hrest] at hgraphic
      cases hgraphic
    simp [isCodeLine, Line.toText, hremark, isInstruction, isLabel_instruction, instructionText_ne_nil]

theorem countP_lines_render {ls : List Line} (h : ∀ l ∈ ls, l.Legal) :
    (Text.lines (render ls)).countP isCodeLine = (instructions ls).length := by
  rw [lines_render h, List.countP_append, countP_map_lines fun l hl => isCodeLine_toText (h l hl)]
  rfl

end HackStack.Asm
