import HackStack.Proofs.Asm.Variables

/-!
# The grammar of assembly

`Spells` is the grammar of instructions and `Grammatical` that of the lines of a text, where a label depends on the
lines before it. The readers of the assembler accept what the grammar derives, and nothing else.
-/

namespace HackStack.Asm

/-! ## Instructions -/

/-- How an instruction is spelled. A constant may have leading zeros, and a destination names its registers in any
order. -/
inductive Spells : Text → Instruction → Prop
  | constant {digits : Text} : digits ≠ [] → (∀ b ∈ digits, Text.isDigit b = true) → Text.digitsValue digits ≤ 32767 →
      Spells (64 :: digits) (.load (.constant (Text.digitsValue digits)))
  | symbol {name : Text} : isSymbol name = true → Spells (64 :: name) (.load (.symbol name))
  | compute {dest : List Register} (comp : Computation) (jump : Option Jump) : dest.Nodup →
      Spells (Instruction.compute dest comp jump).toText (.compute dest comp jump)

theorem Register.letter_of_ofLetter? {b : UInt8} {r : Register} (h : ofLetter? b = some r) : r.letter = b := by
  have := List.find?_some h
  simpa using this

theorem readRegisters_ok (text : Text) : ∀ {rest : Text} {done dest : List Register},
    readRegisters text done rest = .ok dest → done.Nodup →
    dest.Nodup ∧ dest.map Register.letter = (done.map Register.letter).reverse ++ rest
  | [], done, dest, h, hdone => by
    rw [readRegisters, Except.ok.injEq] at h
    subst h
    exact ⟨List.nodup_reverse.mpr hdone, by simp⟩
  | b :: rest, done, dest, h, hdone => by
    rw [readRegisters] at h
    cases hr : Register.ofLetter? b with
    | none => rw [hr] at h; cases h
    | some r =>
      rw [hr] at h
      by_cases hm : r ∈ done
      · simp only [hm, if_true] at h
        cases h
      · simp only [hm, if_false] at h
        have ih := readRegisters_ok text h (List.nodup_cons.mpr ⟨hm, hdone⟩)
        refine ⟨ih.1, ?_⟩
        rw [ih.2, ← Register.letter_of_ofLetter? hr]
        simp

theorem readDestination_ok {text : Text} {dest : List Register} (h : readDestination text = .ok dest) :
    dest ≠ [] ∧ dest.Nodup ∧ dest.map Register.letter = text := by
  unfold readDestination at h
  by_cases hne : text.isEmpty = true
  · rw [if_pos hne] at h
    cases h
  · rw [if_neg hne] at h
    obtain ⟨hnodup, hletters⟩ := readRegisters_ok text h List.nodup_nil
    have hletters : dest.map Register.letter = text := by simpa using hletters
    refine ⟨?_, hnodup, hletters⟩
    intro hnil
    rw [← hletters, hnil] at hne
    exact hne rfl

def readTail (text : Text) (dest : List Register) (rest : Text) : Except Problem Instruction := do
  let (comp, jump) ← match Text.cut? 59 rest with
    | some (comp, jump) =>
      match Jump.ofMnemonic? jump with
      | some j => pure (comp, some j)
      | none => throw (.invalidJump text)
    | none => pure (rest, none)
  match Computation.ofMnemonic? comp with
  | some c => return .compute dest c jump
  | none => throw (.invalidComputation text)

theorem readCompute_eq (text : Text) : readCompute text =
    match Text.cut? 61 text with
    | some (dest, rest) => (readDestination dest).bind fun dest => readTail text dest rest
    | none => readTail text [] text := by
  unfold readCompute
  cases Text.cut? 61 text with
  | none => rfl
  | some parts => cases hd : readDestination parts.1 <;> simp only [hd] <;> rfl

theorem readTail_ok {text rest : Text} {dest : List Register} {i : Instruction} (h : readTail text dest rest = .ok i) :
    ∃ comp jump, i = .compute dest comp jump ∧ rest = comp.mnemonic ++ jumpText jump := by
  unfold readTail at h
  cases hcut : Text.cut? 59 rest with
  | none =>
    rw [hcut] at h
    cases hc : Computation.ofMnemonic? rest with
    | none => simp only [pure_bind, hc] at h; cases h
    | some comp =>
      simp only [pure_bind, hc] at h
      cases h
      exact ⟨comp, none, rfl, by simp [jumpText, Computation.mnemonic_of_ofMnemonic? hc]⟩
  | some parts =>
    obtain ⟨before, after⟩ := parts
    rw [hcut] at h
    cases hj : Jump.ofMnemonic? after with
    | none => simp only [hj] at h; cases h
    | some j =>
      cases hc : Computation.ofMnemonic? before with
      | none => simp only [hj, pure_bind, hc] at h; cases h
      | some comp =>
        simp only [hj, pure_bind, hc] at h
        cases h
        refine ⟨comp, some j, rfl, ?_⟩
        rw [jumpText, Computation.mnemonic_of_ofMnemonic? hc, Jump.mnemonic_of_ofMnemonic? hj]
        exact (Text.cut?_eq_some hcut).1

theorem readCompute_ok {text : Text} {i : Instruction} (h : readCompute text = .ok i) : Spells text i := by
  rw [readCompute_eq] at h
  cases hcut : Text.cut? 61 text with
  | none =>
    rw [hcut] at h
    obtain ⟨comp, jump, rfl, htext⟩ := readTail_ok h
    have hspells := Spells.compute comp jump (List.nodup_nil (α := Register))
    rw [computeText_eq] at hspells
    simpa [htext] using hspells
  | some parts =>
    obtain ⟨before, after⟩ := parts
    simp only [hcut] at h
    cases hd : readDestination before with
    | error p => rw [hd] at h; cases h
    | ok dest =>
      rw [hd] at h
      obtain ⟨comp, jump, rfl, hafter⟩ := readTail_ok h
      obtain ⟨hne, hnodup, hletters⟩ := readDestination_ok hd
      have hspells := Spells.compute comp jump hnodup
      rw [computeText_eq] at hspells
      rw [(Text.cut?_eq_some hcut).1, ← hletters, hafter]
      simpa [hne] using hspells

theorem Operand.ofText_ok {text : Text} {operand : Operand} (h : Operand.ofText text = .ok operand) :
    Spells (64 :: text) (.load operand) := by
  cases text with
  | nil => cases h
  | cons b rest =>
    simp only [Operand.ofText] at h
    by_cases hb : Text.isDigit b = true
    · by_cases hdigits : (b :: rest).all Text.isDigit = true
      · have hread : Text.readNat? (b :: rest) = some (Text.digitsValue (b :: rest)) := by simp [Text.readNat?, hdigits]
        rw [if_pos hb, hread] at h
        by_cases hle : Text.digitsValue (b :: rest) ≤ maxConstant
        · simp only [hle, if_true] at h
          cases h
          exact .constant (by simp) (List.all_eq_true.mp hdigits) hle
        · simp only [hle, if_false] at h
          cases h
      · have hread : Text.readNat? (b :: rest) = none := by simp [Text.readNat?, hdigits]
        rw [if_pos hb, hread] at h
        cases h
    · rw [if_neg hb] at h
      by_cases hsymbol : isSymbol (b :: rest) = true
      · rw [if_pos hsymbol] at h
        cases h
        exact .symbol hsymbol
      · rw [if_neg hsymbol] at h
        cases h

theorem ofText_of_spells {text : Text} {i : Instruction} (h : Spells text i) : Instruction.ofText text = .ok i := by
  cases h with
  | @constant digits hne hdigits hle =>
    have hread : Text.readNat? digits = some (Text.digitsValue digits) := by
      simp [Text.readNat?, hne, List.all_eq_true.mpr hdigits]
    cases digits with
    | nil => exact absurd rfl hne
    | cons b rest =>
      have hle : Text.digitsValue (b :: rest) ≤ maxConstant := hle
      simp [Instruction.ofText, Operand.ofText, hdigits b List.mem_cons_self, hread, hle, Except.map]
  | symbol hsymbol => exact ofText_toText (i := .load (.symbol _)) hsymbol
  | compute comp jump hnodup => exact ofText_toText (i := .compute _ comp jump) hnodup

theorem ofText_eq_ok_iff {text : Text} {i : Instruction} : Instruction.ofText text = .ok i ↔ Spells text i := by
  refine ⟨fun h => ?_, ofText_of_spells⟩
  unfold Instruction.ofText at h
  split at h
  · rename_i operand
    cases ho : Operand.ofText operand with
    | error p => rw [ho] at h; cases h
    | ok o =>
      rw [ho] at h
      cases h
      exact Operand.ofText_ok ho
  · exact readCompute_ok h

theorem Spells.unique {text : Text} {i j : Instruction} (hi : Spells text i) (hj : Spells text j) : i = j := by
  have h := ofText_of_spells hi
  rw [ofText_of_spells hj] at h
  exact (Except.ok.inj h).symm

theorem symbol_of_spells {name : Text} {i : Instruction} (h : Spells (64 :: name) i) (hdot : 46 ∈ name) :
    isSymbol name = true ∧ i = .load (.symbol name) := by
  generalize htext : 64 :: name = text at h
  cases h with
  | constant _ hdigits _ =>
    cases htext
    exact absurd (hdigits 46 hdot) (by decide)
  | symbol hsymbol =>
    cases htext
    exact ⟨hsymbol, rfl⟩
  | @compute dest comp jump _ =>
    have hhead := (head?_computeText dest comp jump).1
    rw [← htext] at hhead
    exact absurd rfl hhead

/-! ## Lines -/

/-- The lines of a text as the assembler reads them, without remarks and white space. Empty ones are kept. -/
def contents (source : Text) : List Text := (Text.lines source).map content

/-- Whether a line counts as an instruction: it is not empty and does not begin like a label. -/
def isInstruction (text : Text) : Bool := !text.isEmpty && !isLabel text

def labelText (name : Text) : Text := (Line.label name).toText

theorem labelText_ne_nil (name : Text) : labelText name ≠ [] := List.cons_ne_nil _ _

/-- The grammar of a line, given the lines before it. -/
inductive Grammatical (before : List Text) : Text → Prop
  | label {name : Text} : isSymbol name = true → name ∉ predefined.map Prod.fst → labelText name ∉ before →
      before.countP isInstruction ≤ 32767 → Grammatical before (labelText name)
  | instruction {text : Text} {i : Instruction} : Spells text i → Grammatical before text

theorem isLabel_labelText (name : Text) : isLabel (labelText name) = true := rfl

theorem labelText_injective {name name' : Text} (h : labelText name = labelText name') : name = name' := by
  have h : 40 :: (name ++ [41]) = 40 :: (name' ++ [41]) := h
  simpa using h

theorem isLabel_iff {text : Text} : isLabel text = true ↔ ∃ body, text = 40 :: body := by
  constructor
  · intro h
    unfold isLabel at h
    split at h
    · exact ⟨_, rfl⟩
    · cases h
  · intro h
    obtain ⟨body, rfl⟩ := h
    rfl

theorem isInstruction_of_spells {text : Text} {i : Instruction} (h : Spells text i) : isInstruction text = true := by
  cases h with
  | constant | symbol => rfl
  | @compute dest comp jump _ =>
    simp [isInstruction, isLabel_instruction, instructionText_ne_nil]

theorem isLabel_of_isInstruction {text : Text} (h : isInstruction text = true) : isLabel text = false := by
  simp only [isInstruction, Bool.and_eq_true, Bool.not_eq_true'] at h
  exact h.2

theorem labelName_ok {text name : Text} (hlabel : isLabel text = true) (h : labelName text = .ok name) :
    text = labelText name ∧ isSymbol name = true := by
  obtain ⟨body, rfl⟩ := isLabel_iff.mp hlabel
  unfold labelName at h
  rw [List.drop_one, List.tail_cons] at h
  split at h
  · cases h
  · by_cases hlast : body.getLast? = some 41
    · by_cases hsymbol : isSymbol body.dropLast = true
      · rw [if_pos hlast, if_pos hsymbol] at h
        cases h
        have hbody := List.dropLast_append_getLast? 41 hlast
        exact ⟨by simp [labelText, Line.toText, hbody], hsymbol⟩
      · rw [if_pos hlast, if_neg hsymbol] at h
        cases h
    · rw [if_neg hlast] at h
      cases h

section
variable {before : List Text}

theorem grammatical_label_iff {text : Text} (hlabel : isLabel text = true) : Grammatical before text ↔
    ∃ name, text = labelText name ∧ isSymbol name = true ∧ name ∉ predefined.map Prod.fst ∧ labelText name ∉ before ∧
      before.countP isInstruction ≤ 32767 := by
  constructor
  · intro h
    cases h with
    | label hsymbol hfree hnew hcount => exact ⟨_, rfl, hsymbol, hfree, hnew, hcount⟩
    | instruction hspells =>
      rw [isLabel_of_isInstruction (isInstruction_of_spells hspells)] at hlabel
      cases hlabel
  · intro h
    obtain ⟨name, rfl, hsymbol, hfree, hnew, hcount⟩ := h
    exact .label hsymbol hfree hnew hcount

theorem grammatical_instruction_iff {text : Text} (h : isInstruction text = true) :
    Grammatical before text ↔ ∃ i, Spells text i := by
  constructor
  · intro hg
    cases hg with
    | label => cases h
    | instruction hspells => exact ⟨_, hspells⟩
  · intro hs
    obtain ⟨i, hspells⟩ := hs
    exact .instruction hspells

end

/-! ## Numbered lines -/

def entriesFrom : Nat → List Text → List Entry
  | _, [] => []
  | n, text :: rest => if text.isEmpty then entriesFrom (n + 1) rest else ⟨n, text⟩ :: entriesFrom (n + 1) rest

theorem numberedFrom_eq (content : Text → Text) : ∀ (lines : List Text) (n : Nat),
    Listing.numberedFrom content n [] lines = entriesFrom n (lines.map content)
  | [], _ => rfl
  | line :: rest, n => by
    rw [Listing.numberedFrom, numberedFrom_done, numberedFrom_eq content rest, List.map_cons, entriesFrom]
    split <;> simp

theorem numbered_eq (source : Text) : Listing.numbered content source = entriesFrom 1 (contents source) :=
  numberedFrom_eq content (Text.lines source) 1

theorem entriesFrom_append (text : Text) : ∀ (lines : List Text) (n : Nat),
    entriesFrom n (lines ++ [text]) =
      entriesFrom n lines ++ if text.isEmpty then [] else [⟨n + lines.length, text⟩]
  | [], n => by
    by_cases h : text.isEmpty = true <;> simp [entriesFrom, h]
  | line :: lines, n => by
    have ih := entriesFrom_append text lines (n + 1)
    rw [List.cons_append, entriesFrom, entriesFrom, ih, List.length_cons]
    split <;> simp [Nat.add_assoc, Nat.add_comm 1]

theorem instructionCount_entriesFrom : ∀ (lines : List Text) (n : Nat),
    instructionCount (entriesFrom n lines) = lines.countP isInstruction
  | [], _ => rfl
  | text :: lines, n => by
    have ih := instructionCount_entriesFrom lines (n + 1)
    unfold instructionCount at ih ⊢
    rw [entriesFrom, List.countP_cons, ← ih]
    by_cases he : text.isEmpty = true
    · simp [he, isInstruction]
    · by_cases hl : isLabel text = true
      · simp [he, hl, isInstruction]
      · simp [he, hl, isInstruction]

end HackStack.Asm
