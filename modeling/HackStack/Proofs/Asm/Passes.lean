import HackStack.Proofs.Asm.Grammar
import Mathlib.Data.List.Induction
import Mathlib.Order.Bounds.Basic

/-!
# The passes of the assembler over the lines of a text

Each pass goes over the lines once and stops at the first line that breaks its part of the grammar. What it has done
up to a line is an invariant of the lines before: `Bound` for the labels, `Encoded` for the code. So a text is
accepted exactly if all its lines are grammatical, and otherwise the error is at the first broken label or, if all
labels are right, at the first broken instruction.
-/

namespace HackStack.Asm

/-! ## Broken lines -/

/-- The numbers of the lines that are broken behind the lines before them. -/
def brokenLines (broken : List Text → Text → Prop) (lines : List Text) : Set Nat :=
  {n | ∃ before text after, lines = before ++ text :: after ∧ n = before.length + 1 ∧ broken before text}

theorem append_singleton_eq {α : Type} {xs before after : List α} {x y : α} :
    xs ++ [x] = before ++ y :: after ↔
      after = [] ∧ before = xs ∧ y = x ∨ ∃ rest, after = rest ++ [x] ∧ xs = before ++ y :: rest := by
  constructor
  · intro h
    cases after using List.reverseRecOn with
    | nil =>
      obtain ⟨hxs, hx⟩ := List.append_inj' h rfl
      exact .inl ⟨rfl, hxs.symm, (List.cons.inj hx).1.symm⟩
    | append_singleton rest z =>
      rw [← List.cons_append, ← List.append_assoc] at h
      obtain ⟨hxs, hx⟩ := List.append_inj' h rfl
      rw [(List.cons.inj hx).1]
      exact .inr ⟨rest, rfl, hxs⟩
  · rintro (⟨rfl, rfl, rfl⟩ | ⟨rest, rfl, rfl⟩)
    · rfl
    · simp

section
variable {broken : List Text → Text → Prop} {lines : List Text}

theorem mem_brokenLines_append {text : Text} {n : Nat} : n ∈ brokenLines broken (lines ++ [text]) ↔
    n ∈ brokenLines broken lines ∨ n = lines.length + 1 ∧ broken lines text := by
  constructor
  · rintro ⟨before, line, after, h, rfl, hbroken⟩
    obtain ⟨-, rfl, rfl⟩ | ⟨rest, -, rfl⟩ := append_singleton_eq.mp h
    · exact .inr ⟨rfl, hbroken⟩
    · exact .inl ⟨before, line, rest, rfl, rfl, hbroken⟩
  · rintro (⟨before, line, after, rfl, rfl, hbroken⟩ | ⟨rfl, hbroken⟩)
    · exact ⟨before, line, after ++ [text], by simp, rfl, hbroken⟩
    · exact ⟨lines, text, [], rfl, rfl, hbroken⟩

theorem le_of_mem_brokenLines {n : Nat} (h : n ∈ brokenLines broken lines) : n ≤ lines.length := by
  obtain ⟨before, line, after, rfl, rfl, -⟩ := h
  simp only [List.length_append, List.length_cons]
  omega

theorem brokenLines_append_of_not {text : Text} (h : ¬ broken lines text) :
    brokenLines broken (lines ++ [text]) = brokenLines broken lines := by
  ext n
  rw [mem_brokenLines_append]
  simp [h]

theorem isLeast_append {n : Nat} (h : IsLeast (brokenLines broken lines) n) (text : Text) :
    IsLeast (brokenLines broken (lines ++ [text])) n := by
  refine ⟨mem_brokenLines_append.mpr (.inl h.1), ?_⟩
  intro m hm
  obtain hm | ⟨rfl, -⟩ := mem_brokenLines_append.mp hm
  · exact h.2 hm
  · have := le_of_mem_brokenLines h.1
    omega

theorem isLeast_append_of_empty {text : Text} (h : brokenLines broken lines = ∅) (hbroken : broken lines text) :
    IsLeast (brokenLines broken (lines ++ [text])) (lines.length + 1) := by
  refine ⟨mem_brokenLines_append.mpr (.inr ⟨rfl, hbroken⟩), ?_⟩
  intro m hm
  obtain hm | ⟨rfl, -⟩ := mem_brokenLines_append.mp hm
  · rw [h] at hm
    cases hm
  · exact Nat.le_refl _

end

/-! ## Passes -/

/-- Whether a pass over lines keeps an invariant and stops at the first broken line. -/
structure Pass {α : Type} (pass : List Text → Except SourceError α) (Inv : List Text → α → Prop)
    (broken : List Text → Text → Prop) : Prop where
  start : ∃ a, pass [] = .ok a ∧ Inv [] a
  stop : ∀ {lines : List Text} {e : SourceError} (text : Text),
    pass lines = .error e → pass (lines ++ [text]) = .error e
  step : ∀ {lines : List Text} {a : α} (text : Text), pass lines = .ok a → Inv lines a →
    (¬ broken lines text ∧ ∃ b, pass (lines ++ [text]) = .ok b ∧ Inv (lines ++ [text]) b) ∨
      broken lines text ∧ ∃ p, pass (lines ++ [text]) = .error ⟨lines.length + 1, p⟩

/-- A pass that fails has gone well up to the first broken line, and fails there. -/
theorem Pass.cases {α : Type} {pass : List Text → Except SourceError α} {Inv : List Text → α → Prop}
    {broken : List Text → Text → Prop} (h : Pass pass Inv broken) (lines : List Text) :
    (∃ a, pass lines = .ok a ∧ Inv lines a ∧ brokenLines broken lines = ∅) ∨
      ∃ before text after a p, lines = before ++ text :: after ∧ pass before = .ok a ∧ Inv before a ∧
        pass (before ++ [text]) = .error ⟨before.length + 1, p⟩ ∧ pass lines = .error ⟨before.length + 1, p⟩ ∧
        broken before text ∧ IsLeast (brokenLines broken lines) (before.length + 1) := by
  -- From the right: the invariant tells of the lines that the pass has behind it.
  induction lines using List.reverseRecOn with
  | nil =>
    obtain ⟨a, ha, hinv⟩ := h.start
    refine .inl ⟨a, ha, hinv, Set.eq_empty_of_forall_notMem ?_⟩
    rintro n ⟨before, text, after, hnil, -, -⟩
    simp at hnil
  | append_singleton lines text ih =>
    obtain ⟨a, ha, hinv, hempty⟩ | ⟨before, line, after, a, p, rfl, ha, hinv, hp, herror, hbroken, hleast⟩ := ih
    · obtain ⟨hbroken, b, hb, hinv'⟩ | ⟨hbroken, p, hp⟩ := h.step text ha hinv
      · exact .inl ⟨b, hb, hinv', (brokenLines_append_of_not hbroken).trans hempty⟩
      · exact .inr ⟨lines, text, [], a, p, rfl, ha, hinv, hp, hp, hbroken, isLeast_append_of_empty hempty hbroken⟩
    · refine .inr ⟨before, line, after ++ [text], a, p, by simp, ha, hinv, hp, ?_, hbroken, isLeast_append hleast text⟩
      exact h.stop text herror

/-! ## Labels -/

theorem initialTable_eq_none_iff {name : Text} : initialTable[name]? = none ↔ name ∉ predefined.map Prod.fst := by
  constructor
  · intro h hname
    obtain ⟨e, he, rfl⟩ := List.mem_map.mp hname
    rw [initialTable_of_mem e he] at h
    cases h
  · intro h
    exact getElem?_foldl_insert h (by simp)

theorem bindLabel_label {table : SymbolTable} {address : Nat} {name : Text} (hsymbol : isSymbol name = true)
    (hnone : table[name]? = none) : bindLabel table address (labelText name) =
      if maxConstant < address then .error (.labelBeyondRom name) else .ok (table.insert name address.toUInt16) := by
  have hfree : table.contains name = false := by
    rw [Std.TreeMap.contains_eq_isSome_getElem?, hnone]
    rfl
  unfold bindLabel
  rw [labelText, labelName_label hsymbol]
  simp only [bind, Except.bind, hfree, Bool.false_eq_true, if_false, pure, Except.pure]
  split <;> rfl

/-- Whether a table holds the predefined symbols and the labels of lines, and nothing else. -/
structure Bound (lines : List Text) (table : SymbolTable) : Prop where
  label : ∀ {before after : List Text} {name : Text}, lines = before ++ labelText name :: after →
    initialTable[name]? = none ∧ before.countP isInstruction ≤ 32767 ∧
      table[name]? = some (before.countP isInstruction).toUInt16
  other : ∀ {name : Text}, labelText name ∉ lines → table[name]? = initialTable[name]?

namespace Bound

theorem start : Bound [] initialTable where
  label := by simp
  other := fun _ => rfl

section
variable {lines : List Text} {table : SymbolTable} (h : Bound lines table)
include h

theorem eq_none_iff {name : Text} :
    table[name]? = none ↔ name ∉ predefined.map Prod.fst ∧ labelText name ∉ lines := by
  rw [← initialTable_eq_none_iff]
  by_cases hm : labelText name ∈ lines
  · obtain ⟨before, after, hlines⟩ := List.append_of_mem hm
    obtain ⟨-, -, haddress⟩ := h.label hlines
    simp [haddress, hm]
  · simp [h.other hm, hm]

theorem skip {text : Text} (htext : isLabel text = false) : Bound (lines ++ [text]) table where
  label := by
    intro before after name hlines
    obtain ⟨-, -, rfl⟩ | ⟨rest, -, hlines⟩ := append_singleton_eq.mp hlines
    · cases htext
    · exact h.label hlines
  other := by
    intro name hname
    rw [List.mem_append, not_or] at hname
    exact h.other hname.1

theorem declare {name : Text} (hnone : table[name]? = none) (hcount : lines.countP isInstruction ≤ 32767) :
    Bound (lines ++ [labelText name]) (table.insert name (lines.countP isInstruction).toUInt16) where
  label := by
    intro before after other hlines
    rw [getElem?_insert]
    obtain ⟨-, rfl, hother⟩ | ⟨rest, -, hlines⟩ := append_singleton_eq.mp hlines
    · rw [labelText_injective hother, if_pos rfl]
      exact ⟨initialTable_eq_none_iff.mpr (h.eq_none_iff.mp hnone).1, hcount, rfl⟩
    · have hlabel := h.label hlines
      have hne : name ≠ other := by
        intro heq
        rw [heq, hlabel.2.2] at hnone
        cases hnone
      rw [if_neg hne]
      exact hlabel
  other := by
    intro other hother
    rw [List.mem_append, List.mem_singleton, not_or] at hother
    have hne : name ≠ other := by
      intro heq
      rw [heq] at hother
      exact hother.2 rfl
    rw [getElem?_insert, if_neg hne, h.other hother.1]

theorem bindLabel {text : Text} (hlabel : isLabel text = true) :
    (Grammatical lines text ∧ ∃ bound, bindLabel table (lines.countP isInstruction) text = .ok bound ∧
        Bound (lines ++ [text]) bound) ∨
      ¬ Grammatical lines text ∧ ∃ p, Asm.bindLabel table (lines.countP isInstruction) text = .error p := by
  cases hb : Asm.bindLabel table (lines.countP isInstruction) text with
  | ok bound =>
    obtain ⟨name, hname, hnone, hcount, rfl⟩ := bindLabel_ok hb
    obtain ⟨rfl, hsymbol⟩ := labelName_ok hlabel hname
    obtain ⟨hfree, hnew⟩ := h.eq_none_iff.mp hnone
    exact .inl ⟨.label hsymbol hfree hnew hcount, _, rfl, h.declare hnone hcount⟩
  | error p =>
    refine .inr ⟨?_, p, rfl⟩
    intro hg
    obtain ⟨name, rfl, hsymbol, hfree, hnew, hcount⟩ := (grammatical_label_iff hlabel).mp hg
    have hnone := h.eq_none_iff.mpr ⟨hfree, hnew⟩
    rw [bindLabel_label hsymbol hnone, if_neg] at hb
    · cases hb
    · exact Nat.not_lt.mpr hcount

end

end Bound

def firstPass (lines : List Text) : Except SourceError SymbolTable := bindLabels initialTable 0 (entriesFrom 1 lines)

theorem firstPass_append (lines : List Text) (text : Text) : firstPass (lines ++ [text]) =
    (firstPass lines).bind fun table =>
      if isLabel text then
        match bindLabel table (lines.countP isInstruction) text with
        | .ok bound => .ok bound
        | .error p => .error ⟨lines.length + 1, p⟩
      else .ok table := by
  unfold firstPass
  rw [entriesFrom_append, bindLabels_append, instructionCount_entriesFrom, Nat.zero_add, Nat.add_comm 1]
  congr 1
  funext table
  by_cases he : text.isEmpty = true
  · rw [List.isEmpty_iff.mp he]
    rfl
  · rw [if_neg he, bindLabels]
    rfl

def BreaksLabel (before : List Text) (text : Text) : Prop := isLabel text = true ∧ ¬ Grammatical before text

theorem pass_firstPass : Pass firstPass Bound BreaksLabel where
  start := ⟨initialTable, rfl, .start⟩
  stop := by
    intro lines e text h
    rw [firstPass_append, h]
    rfl
  step := by
    intro lines table text h hinv
    rw [firstPass_append, h]
    by_cases hlabel : isLabel text = true
    · obtain ⟨hg, bound, hb, hbound⟩ | ⟨hg, p, hp⟩ := hinv.bindLabel hlabel
      · refine .inl ⟨fun hbroken => hbroken.2 hg, bound, ?_, hbound⟩
        simp only [Except.bind, hlabel, if_true, hb]
      · refine .inr ⟨⟨hlabel, hg⟩, p, ?_⟩
        simp only [Except.bind, hlabel, if_true, hp]
    · refine .inl ⟨fun hbroken => hlabel hbroken.1, table, ?_, hinv.skip (by simpa using hlabel)⟩
      simp only [Except.bind, hlabel, Bool.false_eq_true, if_false]

/-! ## Code -/

def instructionLines (lines : List Text) : List (Text × Nat) := (lines.zipIdx 1).filter fun line => isInstruction line.1

def loadedSymbol? : Text → Option Text
  | 64 :: name => if isSymbol name then some name else none
  | _ => none

/-- The symbols without an address that lines load, in the order of their first use. -/
def newSymbols (bound : SymbolTable) (lines : List Text) : List Text :=
  ((lines.filterMap loadedSymbol?).filter fun name => bound[name]?.isNone).eraseDups

/-- Whether a word is the code of an instruction under a table. -/
def Encodes (table : SymbolTable) : Instruction → UInt16 → Prop
  | .load (.constant n), word => word = n.toUInt16
  | .load (.symbol name), word => table[name]? = some word
  | .compute dest comp jump, word => word = computeWord dest comp jump

theorem Encodes.extends {table table' : SymbolTable} (hext : table.Extends table') {i : Instruction} {word : UInt16}
    (h : Encodes table i word) : Encodes table' i word := by
  match i, h with
  | .load (.constant n), h => exact h
  | .load (.symbol name), h => exact hext name word h
  | .compute dest comp jump, h => exact h

theorem Encodes.unique {table : SymbolTable} {i : Instruction} {word word' : UInt16} (h : Encodes table i word)
    (h' : Encodes table i word') : word = word' := by
  match i, h, h' with
  | .load (.constant n), h, h' => exact h.trans h'.symm
  | .compute dest comp jump, h, h' => exact h.trans h'.symm
  | .load (.symbol name), h, h' => exact Option.some.inj (Eq.trans (Eq.symm h) h')

theorem Encodes.word {table : SymbolTable} {i : Instruction} {word : UInt16} (h : Encodes table i word) :
    word = wordUnder table.address i := by
  match i, h with
  | .load (.constant n), h => exact h
  | .compute dest comp jump, h => exact h
  | .load (.symbol name), h => exact (congrArg (Option.getD · 0) h).symm

theorem encodes_encode (e : Encoding) (i : Instruction) : Encodes (e.encode i).2.table i (e.encode i).1 := by
  match i with
  | .load (.constant n) => rfl
  | .compute dest comp jump => rfl
  | .load (.symbol name) =>
    simp only [Encoding.encode, Encoding.resolve, Encodes]
    cases hn : e.table[name]? with
    | some address => exact hn
    | none => simp

theorem loadedSymbol?_eq_some {text name : Text} :
    loadedSymbol? text = some name ↔ text = 64 :: name ∧ isSymbol name = true := by
  constructor
  · intro h
    unfold loadedSymbol? at h
    split at h
    · split at h
      · rename_i hsymbol
        cases h
        exact ⟨rfl, hsymbol⟩
      · cases h
    · cases h
  · rintro ⟨rfl, hsymbol⟩
    exact if_pos hsymbol

theorem loadedSymbol?_of_spells {text : Text} {i : Instruction} (h : Spells text i) :
    loadedSymbol? text = match i with
      | .load (.symbol name) => some name
      | _ => none := by
  cases h with
  | @constant digits hne hdigits _ =>
    obtain ⟨b, rest, rfl⟩ := List.exists_cons_of_ne_nil hne
    simp [loadedSymbol?, isSymbol, hdigits b List.mem_cons_self]
  | symbol hsymbol => simp [loadedSymbol?, hsymbol]
  | @compute dest comp jump _ =>
    have hhead := (head?_computeText dest comp jump).1
    unfold loadedSymbol?
    split
    · rename_i heq
      rw [heq] at hhead
      exact absurd rfl hhead
    · rfl

theorem loadedSymbol?_of_not_instruction {text : Text} (h : isInstruction text = false) : loadedSymbol? text = none := by
  unfold loadedSymbol?
  split
  · cases h
  · rfl

theorem instructionLines_append (lines : List Text) (text : Text) : instructionLines (lines ++ [text]) =
    instructionLines lines ++ if isInstruction text then [(text, lines.length + 1)] else [] := by
  unfold instructionLines
  rw [List.zipIdx_append, List.filter_append, Nat.add_comm 1]
  by_cases h : isInstruction text = true <;> simp [h]

theorem eraseDups_append_singleton (names : List Text) (name : Text) :
    (names ++ [name]).eraseDups = if name ∈ names.eraseDups then names.eraseDups else names.eraseDups ++ [name] := by
  rw [List.eraseDups_append]
  by_cases h : name ∈ names <;> simp [List.removeAll, List.eraseDups_cons, h]

theorem nodup_eraseDups (names : List Text) : names.eraseDups.Nodup := by
  induction names using List.reverseRecOn with
  | nil => exact List.nodup_nil
  | append_singleton names name ih =>
    rw [eraseDups_append_singleton]
    by_cases h : name ∈ names.eraseDups
    · rw [if_pos h]
      exact ih
    · rw [if_neg h, List.nodup_append]
      refine ⟨ih, List.nodup_singleton name, ?_⟩
      intro a ha b hb heq
      rw [List.mem_singleton.mp hb] at heq
      exact h (heq ▸ ha)

theorem eraseDups_of_nodup {names : List Text} (h : names.Nodup) : names.eraseDups = names := by
  induction names using List.reverseRecOn with
  | nil => rfl
  | append_singleton names name ih =>
    obtain ⟨hnames, -, hnew⟩ := List.nodup_append.mp h
    have hname : name ∉ names := fun hm => hnew name hm name (by simp) rfl
    rw [eraseDups_append_singleton, ih hnames, if_neg hname]

theorem newSymbols_append (bound : SymbolTable) (lines : List Text) (text : Text) : newSymbols bound (lines ++ [text]) =
    match loadedSymbol? text with
    | some name =>
      if bound[name]? = none ∧ name ∉ newSymbols bound lines then newSymbols bound lines ++ [name]
      else newSymbols bound lines
    | none => newSymbols bound lines := by
  unfold newSymbols
  rw [List.filterMap_append, List.filter_append]
  cases hload : loadedSymbol? text with
  | none => simp [hload]
  | some name =>
    cases hb : bound[name]? with
    | some address => simp [hload, hb]
    | none =>
      simp only [List.filterMap_cons, hload, List.filterMap_nil, List.filter_cons, hb, Option.isNone_none, if_true,
        List.filter_nil, eraseDups_append_singleton, true_and, ite_not]

/-- What the second pass has made of lines: the number and the word of every instruction, and the addresses of the new
symbols. -/
structure Encoded (bound : SymbolTable) (lines : List Text) (e : Encoding) : Prop where
  numbers : e.lines.toList = (instructionLines lines).map Prod.snd
  words : List.Forall₂ (fun line word => ∃ i, Spells line.1 i ∧ Encodes e.table i word) (instructionLines lines)
    e.words.toList
  allocated : Allocated bound e.table e.next (newSymbols bound lines)

def emptyCode (bound : SymbolTable) : Encoding := ⟨bound, firstVariable, #[], #[]⟩

namespace Encoded

theorem start (bound : SymbolTable) : Encoded bound [] (emptyCode bound) where
  numbers := rfl
  words := .nil
  allocated := .start bound

section
variable {bound : SymbolTable} {lines : List Text} {e : Encoding} (h : Encoded bound lines e)
include h

theorem skip {text : Text} (htext : isInstruction text = false) : Encoded bound (lines ++ [text]) e := by
  have hlines : instructionLines (lines ++ [text]) = instructionLines lines := by
    simp [instructionLines_append, htext]
  have hnew : newSymbols bound (lines ++ [text]) = newSymbols bound lines := by
    rw [newSymbols_append, loadedSymbol?_of_not_instruction htext]
  exact ⟨hlines ▸ h.numbers, hlines ▸ h.words, hnew ▸ h.allocated⟩

theorem encode {text : Text} {i : Instruction} (hspells : Spells text i) :
    Encoded bound (lines ++ [text]) ((e.encode i).2.push (e.encode i).1 (lines.length + 1)) := by
  have hlines : instructionLines (lines ++ [text]) = instructionLines lines ++ [(text, lines.length + 1)] := by
    simp [instructionLines_append, isInstruction_of_spells hspells]
  obtain ⟨hext, hwords, -⟩ := encode_spec e i
  have hnumbers : (e.encode i).2.lines = e.lines := encode_lines e i
  constructor
  · simp [Encoding.push, hlines, hnumbers, h.numbers]
  · rw [hlines]
    simp only [Encoding.push, hwords, Array.toList_push]
    apply List.rel_append
    · refine h.words.imp ?_
      rintro line word ⟨j, hj, hword⟩
      exact ⟨j, hj, hword.extends hext⟩
    · exact .cons ⟨i, hspells, encodes_encode e i⟩ .nil
  · rw [newSymbols_append, loadedSymbol?_of_spells hspells]
    match i with
    | .load (.constant n) => exact h.allocated
    | .load (.symbol name) => exact h.allocated.resolve name
    | .compute dest comp jump => exact h.allocated

end

end Encoded

def secondPass (bound : SymbolTable) (lines : List Text) : Except SourceError Encoding :=
  (emptyCode bound).run ((entriesFrom 1 lines).filter fun e => !isLabel e.text)

theorem secondPass_append (bound : SymbolTable) (lines : List Text) (text : Text) : secondPass bound (lines ++ [text]) =
    (secondPass bound lines).bind fun e =>
      if isInstruction text then
        match Instruction.ofText text with
        | .ok i => .ok ((e.encode i).2.push (e.encode i).1 (lines.length + 1))
        | .error p => .error ⟨lines.length + 1, p⟩
      else .ok e := by
  unfold secondPass
  rw [entriesFrom_append, List.filter_append, Encoding.run_append, Nat.add_comm 1]
  congr 1
  funext e
  by_cases he : text.isEmpty = true
  · simp [he, isInstruction, Encoding.run]
  · by_cases hl : isLabel text = true
    · simp [he, hl, isInstruction, Encoding.run]
    · simp only [he, hl, isInstruction, Encoding.run, Bool.false_eq_true, if_false, Bool.not_false, Bool.and_true,
        if_true, List.filter_cons, List.filter_nil]
      cases Instruction.ofText text <;> rfl

def BreaksInstruction (before : List Text) (text : Text) : Prop := isInstruction text = true ∧ ¬ Grammatical before text

theorem pass_secondPass (bound : SymbolTable) : Pass (secondPass bound) (Encoded bound) BreaksInstruction where
  start := ⟨emptyCode bound, rfl, .start bound⟩
  stop := by
    intro lines e text h
    rw [secondPass_append, h]
    rfl
  step := by
    intro lines e text h hinv
    rw [secondPass_append, h]
    by_cases hi : isInstruction text = true
    · cases hread : Instruction.ofText text with
      | ok i =>
        have hspells := ofText_eq_ok_iff.mp hread
        refine .inl ⟨fun hbroken => hbroken.2 (.instruction hspells), _, ?_, hinv.encode hspells⟩
        simp only [Except.bind, hi, if_true]
      | error p =>
        refine .inr ⟨⟨hi, ?_⟩, p, ?_⟩
        · intro hg
          obtain ⟨i, hspells⟩ := (grammatical_instruction_iff hi).mp hg
          rw [ofText_of_spells hspells] at hread
          cases hread
        · simp only [Except.bind, hi, if_true]
    · refine .inl ⟨fun hbroken => hi hbroken.1, e, ?_, hinv.skip (by simpa using hi)⟩
      simp only [Except.bind, hi, Bool.false_eq_true, if_false]

/-! ## Whole texts -/

theorem assemble_eq (source : Text) : assemble source =
    (firstPass (contents source)).bind fun bound =>
      (secondPass bound (contents source)).map fun code => ⟨code.words, code.lines, code.table⟩ := by
  unfold assemble firstPass secondPass emptyCode
  rw [numbered_eq]
  rfl

theorem brokenLines_eq_empty_iff {broken : List Text → Text → Prop} {lines : List Text} :
    brokenLines broken lines = ∅ ↔ ∀ before text after, lines = before ++ text :: after → ¬ broken before text := by
  rw [Set.eq_empty_iff_forall_notMem]
  constructor
  · intro h before text after hlines hbroken
    exact h _ ⟨before, text, after, hlines, rfl, hbroken⟩
  · rintro h n ⟨before, text, after, hlines, -, hbroken⟩
    exact h before text after hlines hbroken

theorem grammatical_iff {lines : List Text} :
    (∀ before text after, lines = before ++ text :: after → text ≠ [] → Grammatical before text) ↔
      brokenLines BreaksLabel lines = ∅ ∧ brokenLines BreaksInstruction lines = ∅ := by
  rw [brokenLines_eq_empty_iff, brokenLines_eq_empty_iff]
  constructor
  · intro h
    refine ⟨fun before text after hlines hbroken => ?_, fun before text after hlines hbroken => ?_⟩
    · refine hbroken.2 (h before text after hlines ?_)
      rintro rfl
      cases hbroken.1
    · refine hbroken.2 (h before text after hlines ?_)
      rintro rfl
      cases hbroken.1
  · intro h before text after hlines hne
    by_contra hg
    by_cases hlabel : isLabel text = true
    · exact h.1 before text after hlines ⟨hlabel, hg⟩
    · have hi : isInstruction text = true := by simp [isInstruction, hne, hlabel]
      exact h.2 before text after hlines ⟨hi, hg⟩

/-- Assembling a text either goes through both passes, or fails at the first broken line of the first pass that has
one. -/
theorem assemble_cases (source : Text) :
    (∃ bound code, assemble source = .ok ⟨code.words, code.lines, code.table⟩ ∧ Bound (contents source) bound ∧
        Encoded bound (contents source) code ∧ brokenLines BreaksLabel (contents source) = ∅ ∧
        brokenLines BreaksInstruction (contents source) = ∅) ∨
      (∃ before text after table p, contents source = before ++ text :: after ∧ isLabel text = true ∧
        Bound before table ∧ bindLabel table (before.countP isInstruction) text = .error p ∧
        assemble source = .error ⟨before.length + 1, p⟩ ∧
        IsLeast (brokenLines BreaksLabel (contents source)) (before.length + 1)) ∨
      ∃ e, assemble source = .error e ∧ brokenLines BreaksLabel (contents source) = ∅ ∧
        IsLeast (brokenLines BreaksInstruction (contents source)) e.line := by
  rw [assemble_eq]
  obtain ⟨bound, hb, hbound, hlabels⟩ | ⟨before, text, after, table, p, hlines, ha, hinv, hp, herror, hbroken, hleast⟩ :=
    pass_firstPass.cases (contents source)
  · rw [hb]
    obtain ⟨code, hc, hcode, hinstructions⟩ | ⟨before, text, after, code, p, -, -, -, -, herror, -, hleast⟩ :=
      (pass_secondPass bound).cases (contents source)
    · exact .inl ⟨bound, code, by simp only [Except.bind, hc, Except.map], hbound, hcode, hlabels, hinstructions⟩
    · refine .inr (.inr ⟨⟨before.length + 1, p⟩, ?_, hlabels, hleast⟩)
      simp only [Except.bind, herror, Except.map]
  · -- A broken label ends the first pass, and no instruction is looked at.
    refine .inr (.inl ⟨before, text, after, table, p, hlines, hbroken.1, hinv, ?_, by rw [herror]; rfl, hleast⟩)
    rw [firstPass_append, ha] at hp
    simp only [Except.bind, hbroken.1, if_true] at hp
    cases hb : bindLabel table (before.countP isInstruction) text with
    | ok bound => rw [hb] at hp; cases hp
    | error q =>
      rw [hb] at hp
      cases hp
      rfl

theorem not_isLeast_of_empty {broken : List Text → Text → Prop} {lines : List Text} {n : Nat}
    (h : brokenLines broken lines = ∅) : ¬ IsLeast (brokenLines broken lines) n := by
  intro hleast
  rw [h] at hleast
  exact hleast.1

theorem assemble_ok_iff {source : Text} : (∃ p, assemble source = .ok p) ↔
    ∀ before text after, contents source = before ++ text :: after → text ≠ [] → Grammatical before text := by
  rw [grammatical_iff]
  obtain ⟨bound, code, hok, -, -, hlabels, hinstructions⟩ |
    ⟨before, text, after, table, p, -, -, -, -, herror, hleast⟩ | ⟨e, herror, -, hleast⟩ := assemble_cases source
  · exact ⟨fun _ => ⟨hlabels, hinstructions⟩, fun _ => ⟨_, hok⟩⟩
  · rw [herror]
    exact ⟨by simp, fun h => absurd hleast (not_isLeast_of_empty h.1)⟩
  · rw [herror]
    exact ⟨by simp, fun h => absurd hleast (not_isLeast_of_empty h.2)⟩

theorem line_of_assemble_error {source : Text} {e : SourceError} (h : assemble source = .error e) :
    IsLeast (brokenLines BreaksLabel (contents source)) e.line ∨
      brokenLines BreaksLabel (contents source) = ∅ ∧
        IsLeast (brokenLines BreaksInstruction (contents source)) e.line := by
  obtain ⟨bound, code, hok, -⟩ | ⟨before, text, after, table, p, -, -, -, -, herror, hleast⟩ |
    ⟨e', herror, hlabels, hleast⟩ := assemble_cases source
  · rw [h] at hok
    cases hok
  · rw [h] at herror
    cases herror
    exact .inl hleast
  · rw [h] at herror
    cases herror
    exact .inr ⟨hlabels, hleast⟩

/-- A text is accepted exactly if every line that is not empty is grammatical. Otherwise the error names the first line
that breaks the rule for labels or, if there is none, the first that breaks the rule for instructions. -/
theorem assemble_accepts_grammar (source : Text) :
    let lines := contents source
    ((∃ p, assemble source = .ok p) ↔
      ∀ before text after, lines = before ++ text :: after → text ≠ [] → Grammatical before text) ∧
    ∀ e, assemble source = .error e →
      (IsLeast (brokenLines BreaksLabel lines) e.line ∨
        brokenLines BreaksLabel lines = ∅ ∧ IsLeast (brokenLines BreaksInstruction lines) e.line) ∧
      e.message = ascii "line " ++ Text.decimal e.line ++ ascii ": " ++ e.problem.describe ++
        ascii ": hack syntax error" := by
  intro lines
  refine ⟨assemble_ok_iff, fun e he => ?_⟩
  exact ⟨line_of_assemble_error he, rfl⟩

/-- The label in the second line is predefined, so the error is there and not at the large constant before it. -/
theorem assemble_accepts_grammar_sample :
    (¬ ∃ i, Spells (ascii "@32768") i) ∧
    ∃ e, assemble (ascii "@32768\n(R0)\n") = .error e ∧ e.line = 2 ∧
      IsLeast (brokenLines BreaksLabel (contents (ascii "@32768\n(R0)\n"))) e.line := by
  have hconstant : Instruction.ofText (ascii "@32768") = .error (.invalidConstant (ascii "32768")) := by rfl
  have herror : assemble (ascii "@32768\n(R0)\n") = .error ⟨2, .duplicateLabel (ascii "R0")⟩ := by rfl
  have hlabel : 2 ∈ brokenLines BreaksLabel (contents (ascii "@32768\n(R0)\n")) := by
    refine ⟨[ascii "@32768"], labelText (ascii "R0"), [[]], by decide, rfl, rfl, ?_⟩
    rw [grammatical_label_iff rfl]
    rintro ⟨name, hname, -, hfree, -⟩
    rw [← labelText_injective hname] at hfree
    exact hfree (by decide)
  refine ⟨?_, _, herror, rfl, ?_⟩
  · rintro ⟨i, hi⟩
    rw [ofText_of_spells hi] at hconstant
    cases hconstant
  · obtain hleast | ⟨hempty, -⟩ := ((assemble_accepts_grammar _).2 _ herror).1
    · exact hleast
    · rw [hempty] at hlabel
      cases hlabel

end HackStack.Asm
