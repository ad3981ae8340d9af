import HackStack.Asm.Line
import HackStack.Asm.Program
import HackStack.Proofs.Text

/-!
# Written lines are read back

A legal line holds graphic bytes only, unless it is a remark, so the assembler sees it as it was written. From
there each kind of line is read back: an instruction as itself, a label by its name, and a remark as nothing.
-/

namespace HackStack.Asm

/-- Whether an instruction can be written: its constant fits, its symbol is legal and it names no destination
twice. -/
def Instruction.Legal : Instruction → Prop
  | .load (.constant n) => n ≤ maxConstant
  | .load (.symbol name) => isSymbol name = true
  | .compute dest _ _ => dest.Nodup

def Line.Legal : Line → Prop
  | .remark text => Text.lineFeed ∉ text
  | .label name => isSymbol name = true
  | .instruction i => i.Legal

/-! ## Graphic bytes -/

theorem isGraphic_of_isSymbolByte {b : UInt8} (h : isSymbolByte b = true) : Text.isGraphic b = true := by
  simp only [isSymbolByte, Text.isDigit, Bool.or_eq_true, Bool.and_eq_true, decide_eq_true_eq, beq_iff_eq,
    UInt8.le_iff_toNat_le, ← UInt8.toNat_inj] at h
  simp only [Text.isGraphic, Bool.and_eq_true, decide_eq_true_eq, bne_iff_ne, ne_eq, UInt8.le_iff_toNat_le,
    ← UInt8.toNat_inj]
  simp only [UInt8.reduceToNat] at h ⊢
  omega

theorem isSymbolByte_of_isDigit {b : UInt8} (h : Text.isDigit b = true) : isSymbolByte b = true := by
  simp [isSymbolByte, h]

theorem isSymbol_numbered {word : Text} (h : isSymbol word = true) (k : Nat) :
    isSymbol (word ++ Text.decimal k) = true := by
  cases word with
  | nil => simp [isSymbol] at h
  | cons b rest =>
    have hdigits : (Text.decimal k).all isSymbolByte = true := by
      rw [List.all_eq_true]
      exact fun c hc => isSymbolByte_of_isDigit (List.all_eq_true.mp (Text.all_isDigit_decimal k) c hc)
    simp only [isSymbol, Bool.and_eq_true] at h
    simp only [List.cons_append, isSymbol, Bool.and_eq_true]
    refine ⟨h.1, ?_⟩
    rw [← List.cons_append, List.all_append, h.2, hdigits]
    rfl

theorem all_isGraphic_of_isSymbol {name : Text} (h : isSymbol name = true) : name.all Text.isGraphic = true := by
  cases name with
  | nil => rfl
  | cons b rest =>
    simp only [isSymbol, Bool.and_eq_true] at h
    rw [List.all_eq_true] at h ⊢
    exact fun c hc => isGraphic_of_isSymbolByte (h.2 c hc)

theorem all_isGraphic_decimal (n : Nat) : (Text.decimal n).all Text.isGraphic = true := by
  rw [List.all_eq_true]
  intro b hb
  have hd := List.all_eq_true.mp (Text.all_isDigit_decimal n) b hb
  exact isGraphic_of_isSymbolByte (isSymbolByte_of_isDigit hd)

theorem all_isGraphic_mnemonic (c : Computation) : c.mnemonic.all Text.isGraphic = true := by
  cases c with
  | y i | notY i | negY i | incY i | swappedIncY i | decY i | dPlusY i | swappedDPlusY i | dMinusY i | yMinusD i
  | dAndY i | swappedDAndY i | dOrY i | swappedDOrY i => cases i <;> decide
  | _ => decide

theorem all_isGraphic_jump (j : Jump) : j.mnemonic.all Text.isGraphic = true := by
  cases j <;> decide

theorem all_isGraphic_letters (dest : List Register) : (dest.map Register.letter).all Text.isGraphic = true := by
  rw [List.all_map, List.all_eq_true]
  intro r _
  cases r <;> decide

theorem all_isGraphic_instruction {i : Instruction} (h : i.Legal) : i.toText.all Text.isGraphic = true := by
  match i, h with
  | .load (.constant n), _ => simp [Instruction.toText, Operand.toText, all_isGraphic_decimal]; decide
  | .load (.symbol name), h =>
    simp [Instruction.toText, Operand.toText, all_isGraphic_of_isSymbol h]; decide
  | .compute dest comp jump, _ =>
    have h61 : Text.isGraphic 61 = true := by decide
    have h59 : Text.isGraphic 59 = true := by decide
    unfold Instruction.toText
    have hd : (if dest.isEmpty then [] else dest.map Register.letter ++ [61]).all Text.isGraphic = true := by
      split
      · rfl
      · rw [List.all_append, all_isGraphic_letters]; simp [h61]
    rw [List.all_append, List.all_append, hd, all_isGraphic_mnemonic]
    cases jump with
    | none => rfl
    | some j => simp [h59, all_isGraphic_jump]

theorem all_isGraphic_line {l : Line} (h : l.Legal) (hr : ∀ text, l ≠ .remark text) :
    l.toText.all Text.isGraphic = true := by
  cases l with
  | remark text => exact absurd rfl (hr text)
  | label name =>
    have h40 : Text.isGraphic 40 = true := by decide
    have h41 : Text.isGraphic 41 = true := by decide
    simp [Line.toText, all_isGraphic_of_isSymbol h, h40, h41]
  | instruction i => exact all_isGraphic_instruction h

/-! ## The content of a line -/

theorem content_unbroken {t : Text} (hslash : 47 ∉ t) (h : t.Unbroken) : content t = t := by
  unfold content Text.stripRemark
  rw [Text.stripRemark_go_of_not_mem [] hslash]
  exact Text.unbroken_iff.mp h

theorem content_graphic {t : Text} (h : t.all Text.isGraphic = true) : content t = t := by
  refine content_unbroken (fun hslash => ?_) (Text.unbroken_graphic h)
  exact absurd (List.all_eq_true.mp h 47 hslash) (by decide)

theorem content_remark (text : Text) : content (Line.remark text).toText = [] := by
  have : (Line.remark text).toText = 47 :: 47 :: 32 :: text := rfl
  rw [this]
  unfold content Text.stripRemark
  rw [Text.stripRemark.go]
  rfl

theorem content_line {l : Line} (h : l.Legal) (hr : ∀ text, l ≠ .remark text) : content l.toText = l.toText :=
  content_graphic (all_isGraphic_line h hr)

theorem lineFeed_not_mem {l : Line} (h : l.Legal) : Text.lineFeed ∉ l.toText := by
  by_cases hr : ∃ text, l = .remark text
  · obtain ⟨text, rfl⟩ := hr
    have : (Line.remark text).toText = 47 :: 47 :: 32 :: text := rfl
    rw [this]
    simp only [List.mem_cons, not_or]
    exact ⟨by decide, by decide, by decide, h⟩
  · have hg := all_isGraphic_line h fun text e => hr ⟨text, e⟩
    intro hm
    exact absurd (List.all_eq_true.mp hg _ hm) (by decide)

theorem lines_of_lineFeed_not_mem {ls : List Line} (h : ∀ l ∈ ls, Text.lineFeed ∉ l.toText) :
    Text.lines (render ls) = ls.map Line.toText ++ [[]] :=
  Text.lines_flatMap h

theorem lines_render {ls : List Line} (h : ∀ l ∈ ls, l.Legal) :
    Text.lines (render ls) = ls.map Line.toText ++ [[]] :=
  lines_of_lineFeed_not_mem fun l hl => lineFeed_not_mem (h l hl)

/-! ## Reading instructions back -/

/-- The bytes that divide an instruction, and those that begin another kind of line, are in no mnemonic. -/
theorem not_mem_mnemonic (c : Computation) :
    61 ∉ c.mnemonic ∧ 59 ∉ c.mnemonic ∧ c.mnemonic.head? ≠ some 64 ∧ c.mnemonic.head? ≠ some 40 := by
  cases c with
  | y i | notY i | negY i | incY i | swappedIncY i | decY i | dPlusY i | swappedDPlusY i | dMinusY i | yMinusD i
  | dAndY i | swappedDAndY i | dOrY i | swappedDOrY i => cases i <;> decide
  | _ => decide

theorem not_mem_letters (dest : List Register) : 61 ∉ dest.map Register.letter := by
  simp only [List.mem_map, not_exists, not_and]
  rintro r - h
  cases r <;> exact absurd h (by decide)

theorem ofLetter?_letter (r : Register) : Register.ofLetter? r.letter = some r := by
  cases r <;> decide

theorem readRegisters_letters (text : Text) :
    ∀ (dest done : List Register), (∀ r ∈ dest, r ∉ done) → dest.Nodup →
      readRegisters text done (dest.map Register.letter) = .ok (done.reverse ++ dest)
  | [], done, _, _ => by simp [readRegisters]
  | r :: dest, done, hd, hn => by
    rw [List.nodup_cons] at hn
    have hr : r ∉ done := hd r List.mem_cons_self
    have hd' : ∀ q ∈ dest, q ∉ r :: done := by
      intro q hq
      simp only [List.mem_cons, not_or]
      refine ⟨?_, hd q (List.mem_cons_of_mem _ hq)⟩
      rintro rfl; exact hn.1 hq
    rw [List.map_cons, readRegisters, ofLetter?_letter]
    simp only [hr, if_false]
    rw [readRegisters_letters text dest (r :: done) hd' hn.2]
    simp

theorem readDestination_letters {dest : List Register} (hne : dest ≠ []) (hn : dest.Nodup) :
    readDestination (dest.map Register.letter) = .ok dest := by
  unfold readDestination
  rw [if_neg (by simpa using hne), readRegisters_letters _ dest [] (by simp) hn]
  rfl

theorem mnemonic_ne_nil (c : Computation) : c.mnemonic ≠ [] := by
  cases c with
  | y i | notY i | negY i | incY i | swappedIncY i | decY i | dPlusY i | swappedDPlusY i | dMinusY i | yMinusD i
  | dAndY i | swappedDAndY i | dOrY i | swappedDOrY i => cases i <;> decide
  | _ => decide

theorem head?_computeText (dest : List Register) (comp : Computation) (jump : Option Jump) :
    (Instruction.compute dest comp jump).toText.head? ≠ some 64 ∧
      (Instruction.compute dest comp jump).toText.head? ≠ some 40 := by
  have hm := not_mem_mnemonic comp
  cases dest with
  | nil =>
    obtain ⟨b, rest, hb⟩ := List.exists_cons_of_ne_nil (mnemonic_ne_nil comp)
    rw [hb] at hm
    simpa [Instruction.toText, hb] using hm.2.2
  | cons r dest => cases r <;> simp [Instruction.toText, Register.letter]

def jumpText : Option Jump → Text
  | some j => 59 :: j.mnemonic
  | none => []

theorem computeText_eq (dest : List Register) (comp : Computation) (jump : Option Jump) :
    (Instruction.compute dest comp jump).toText =
      (if dest.isEmpty then [] else dest.map Register.letter ++ [61]) ++ comp.mnemonic ++ jumpText jump := by
  cases jump <;> rfl

theorem not_mem_tail (comp : Computation) (jump : Option Jump) : 61 ∉ comp.mnemonic ++ jumpText jump := by
  have hm := (not_mem_mnemonic comp).1
  cases jump with
  | none => simpa [jumpText] using hm
  | some j =>
    have hj : 61 ∉ j.mnemonic := by cases j <;> decide
    simp [jumpText, hm, hj]

theorem cut?_tail (comp : Computation) (jump : Option Jump) :
    Text.cut? 59 (comp.mnemonic ++ jumpText jump) = jump.map fun j => (comp.mnemonic, j.mnemonic) := by
  have hm := (not_mem_mnemonic comp).2.1
  cases jump with
  | none => rw [jumpText, List.append_nil, Text.cut?_none hm]; rfl
  | some j => rw [jumpText, Text.cut?_append hm]; rfl

theorem readCompute_toText {dest : List Register} (hn : dest.Nodup) (comp : Computation) (jump : Option Jump) :
    readCompute (Instruction.compute dest comp jump).toText = .ok (.compute dest comp jump) := by
  rw [computeText_eq]
  by_cases hne : dest = []
  · subst hne
    simp only [List.isEmpty_nil, if_true, List.nil_append]
    unfold readCompute
    rw [Text.cut?_none (not_mem_tail comp jump)]
    simp only [pure_bind, cut?_tail]
    cases jump with
    | none =>
      simp only [jumpText, List.append_nil, Option.map_none, Computation.ofMnemonic?_mnemonic]
      rfl
    | some j =>
      simp only [Option.map_some, Jump.ofMnemonic?_mnemonic, Computation.ofMnemonic?_mnemonic]
      rfl
  · have htext : (if dest.isEmpty then [] else dest.map Register.letter ++ [61]) ++ comp.mnemonic ++ jumpText jump =
        dest.map Register.letter ++ 61 :: (comp.mnemonic ++ jumpText jump) := by simp [hne]
    rw [htext]
    unfold readCompute
    rw [Text.cut?_append (not_mem_letters dest)]
    simp only [readDestination_letters hne hn, bind, Except.bind, pure, Except.pure, cut?_tail]
    cases jump with
    | none => simp only [Option.map_none, jumpText, List.append_nil, Computation.ofMnemonic?_mnemonic]
    | some j => simp only [Option.map_some, Jump.ofMnemonic?_mnemonic, Computation.ofMnemonic?_mnemonic]

theorem isDigit_head_decimal (n : Nat) : ∃ b rest, Text.decimal n = b :: rest ∧ Text.isDigit b = true := by
  obtain ⟨b, rest, hb⟩ := List.exists_cons_of_ne_nil (Text.decimal_ne_nil n)
  have hd := Text.all_isDigit_decimal n
  rw [hb, List.all_cons, Bool.and_eq_true] at hd
  exact ⟨b, rest, hb, hd.1⟩

theorem Operand.ofText_constant {n : Nat} (h : n ≤ maxConstant) :
    Operand.ofText (Text.decimal n) = .ok (.constant n) := by
  obtain ⟨b, rest, hb, hd⟩ := isDigit_head_decimal n
  have hr := Text.readNat?_decimal n
  rw [hb] at hr ⊢
  simp only [Operand.ofText, hd, if_true, hr, h]

theorem Operand.ofText_symbol {name : Text} (h : isSymbol name = true) :
    Operand.ofText name = .ok (.symbol name) := by
  cases name with
  | nil => exact absurd h (by decide)
  | cons b rest =>
    have hb : Text.isDigit b = false := by
      simp only [isSymbol, Bool.and_eq_true, Bool.not_eq_true'] at h
      exact h.1
    simp only [Operand.ofText, hb, Bool.false_eq_true, if_false, h, if_true]

theorem ofText_toText {i : Instruction} (h : i.Legal) : Instruction.ofText i.toText = .ok i := by
  match i, h with
  | .load (.constant n), h =>
    simp only [Instruction.toText, Instruction.ofText, Operand.toText, Operand.ofText_constant h]
    rfl
  | .load (.symbol name), h =>
    simp only [Instruction.toText, Instruction.ofText, Operand.toText, Operand.ofText_symbol h]
    rfl
  | .compute dest comp jump, h =>
    rw [Instruction.ofText, readCompute_toText h]
    intro operand e
    have := (head?_computeText dest comp jump).1
    rw [e] at this
    exact this rfl

theorem instructionText_ne_nil (i : Instruction) : i.toText ≠ [] := by
  cases i with
  | load operand => simp [Instruction.toText]
  | compute dest comp jump => rw [computeText_eq]; simp [mnemonic_ne_nil]

/-! ## Labels -/

theorem isLabel_label (name : Text) : isLabel (Line.label name).toText = true := rfl

theorem isLabel_instruction (i : Instruction) : isLabel i.toText = false := by
  cases i with
  | load operand => rfl
  | compute dest comp jump =>
    have h := (head?_computeText dest comp jump).2
    unfold isLabel
    split
    · rename_i heq; rw [heq] at h; exact absurd rfl h
    · rfl

theorem labelName_label {name : Text} (h : isSymbol name = true) :
    labelName (Line.label name).toText = .ok name := by
  have hd : (Line.label name).toText.drop 1 = name ++ [41] := rfl
  unfold labelName
  rw [hd]
  split
  · rename_i heq; simp at heq
  · simp [h]

/-! ## Reading a text -/

def Line.ofText? (text : Text) : Option Line :=
  if isLabel (content text) then (labelName (content text)).toOption.map .label
  else (Instruction.ofText (content text)).toOption.map .instruction

def readLines (text : Text) : List Line := (Text.lines text).filterMap Line.ofText?

def Line.isCode : Line → Bool
  | .remark _ => false
  | _ => true

def Line.declares? : Line → Option Text
  | .label name => some name
  | _ => none

theorem Line.declares?_eq_some {l : Line} {name : Text} : l.declares? = some name ↔ l = .label name := by
  cases l <;> simp [declares?]

theorem ofText?_toText {l : Line} (h : l.Legal) : Line.ofText? l.toText = if l.isCode then some l else none := by
  unfold Line.ofText?
  cases l with
  | remark text =>
    rw [content_remark]
    rfl
  | label name =>
    rw [content_line h (by simp), isLabel_label, labelName_label h]
    rfl
  | instruction i =>
    rw [content_line h (by simp)]
    simp only [Line.toText, isLabel_instruction, ofText_toText h]
    rfl

theorem readLines_render {ls : List Line} (h : ∀ l ∈ ls, l.Legal) : readLines (render ls) = ls.filter Line.isCode := by
  have hnil : Line.ofText? [] = none := by decide
  unfold readLines
  rw [lines_render h, List.filterMap_append, List.filterMap_map, List.filterMap_cons_none hnil, List.filterMap_nil,
    List.append_nil]
  induction ls with
  | nil => rfl
  | cons l ls ih =>
    rw [List.forall_mem_cons] at h
    rw [List.filterMap_cons, ih h.2, List.filter_cons, Function.comp_apply, ofText?_toText h.1]
    cases hc : l.isCode <;> simp

theorem readable_render {ls : List Line} (h : ∀ l ∈ ls, l.Legal) :
    ∀ line ∈ Text.lines (render ls), content line ≠ [] → (Line.ofText? line).isSome = true := by
  intro line hline hne
  rw [lines_render h, List.mem_append, List.mem_map, List.mem_singleton] at hline
  obtain ⟨l, hl, rfl⟩ | rfl := hline
  · rw [ofText?_toText (h l hl)]
    cases l with
    | remark text => exact absurd (content_remark text) hne
    | _ => rfl
  · exact absurd rfl hne

end HackStack.Asm
