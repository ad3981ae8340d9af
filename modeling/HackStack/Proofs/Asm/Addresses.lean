import HackStack.Proofs.Asm.Passes
import Mathlib.Data.List.Range

/-!
# Addresses of symbols

The table of an accepted text holds the predefined symbols, a label at the number of instructions before it, and the
variables at consecutive addresses in the order of their first use. The code has one word and one number for each
instruction line, and the word of a line is its code under the final table.
-/

namespace HackStack.Asm

/-- The variables of lines, in the order of their first use: the symbols that are loaded, but neither predefined nor
declared as a label anywhere. -/
def variableNames (lines : List Text) : List Text :=
  ((lines.filterMap loadedSymbol?).filter fun name =>
    decide (name ∉ predefined.map Prod.fst ∧ labelText name ∉ lines)).eraseDups

/-- What a program owes to the lines that it was assembled from. -/
structure Resolved (lines : List Text) (p : Program) : Prop where
  /-- Every instruction line has its number in the program, in order. -/
  numbers : p.lines.toList = (instructionLines lines).map Prod.snd
  /-- Every instruction line has its word in the program, in order. -/
  words : List.Forall₂ (fun line word => ∃ i, Spells line.1 i ∧ Encodes p.symbols i word) (instructionLines lines)
    p.words.toList
  /-- The predefined symbols keep their addresses. -/
  fixed : ∀ entry ∈ predefined, p.symbols[entry.1]? = some entry.2
  /-- A label has the number of instruction lines before it. -/
  label : ∀ before name after, lines = before ++ labelText name :: after →
    before.countP isInstruction ≤ 32767 ∧ p.symbols[name]? = some (before.countP isInstruction).toUInt16
  /-- Variables are numbered from 16 on, modulo the number of words. -/
  allotted : ∀ j name, (variableNames lines)[j]? = some name → p.symbols[name]? = some (16 + j).toUInt16
  /-- The table holds nothing else. -/
  only : ∀ name address, p.symbols[name]? = some address →
    name ∈ predefined.map Prod.fst ∨ labelText name ∈ lines ∨ name ∈ variableNames lines

theorem newSymbols_eq {bound : SymbolTable} {lines : List Text} (h : Bound lines bound) :
    newSymbols bound lines = variableNames lines := by
  unfold newSymbols variableNames
  congr 1
  apply List.filter_congr
  intro name _
  rw [Bool.eq_iff_iff, Option.isNone_iff_eq_none, decide_eq_true_eq]
  exact h.eq_none_iff

theorem resolved_of_passes {lines : List Text} {bound : SymbolTable} {code : Encoding} (hb : Bound lines bound)
    (hc : Encoded bound lines code) : Resolved lines ⟨code.words, code.lines, code.table⟩ := by
  have halloc := hc.allocated
  rw [newSymbols_eq hb] at halloc
  -- A symbol that the first pass has bound is no variable, so it keeps its address.
  have hkept : ∀ {name : Text} {address : UInt16}, bound[name]? = some address → code.table[name]? = some address := by
    intro name address hname
    rw [halloc.other name, hname]
    intro hm
    rw [halloc.unbound name hm] at hname
    cases hname
  constructor
  · exact hc.numbers
  · exact hc.words
  · intro entry hentry
    apply hkept
    rw [hb.other, initialTable_of_mem entry hentry]
    intro hlabel
    obtain ⟨before, after, hlines⟩ := List.append_of_mem hlabel
    have hnone := (hb.label hlines).1
    rw [initialTable_of_mem entry hentry] at hnone
    cases hnone
  · intro before name after hlines
    obtain ⟨-, hcount, haddress⟩ := hb.label hlines
    exact ⟨hcount, hkept haddress⟩
  · intro j name hj
    obtain ⟨hlt, rfl⟩ := List.getElem?_eq_some_iff.mp hj
    have hgiven := halloc.given _ (List.getElem_mem hlt)
    rw [halloc.nodup.idxOf_getElem] at hgiven
    rw [hgiven]
    simp [firstVariable, Nat.toUInt16]
  · intro name address hname
    by_cases hm : name ∈ variableNames lines
    · exact .inr (.inr hm)
    · by_cases hlabel : labelText name ∈ lines
      · exact .inr (.inl hlabel)
      · by_cases hpre : name ∈ predefined.map Prod.fst
        · exact .inl hpre
        · have hname : code.table[name]? = some address := hname
          rw [halloc.other name hm, hb.eq_none_iff.mpr ⟨hpre, hlabel⟩] at hname
          cases hname

theorem resolved_of_assemble {source : Text} {p : Program} (h : assemble source = .ok p) :
    Resolved (contents source) p := by
  obtain ⟨bound, code, hok, hb, hc, -, -⟩ | ⟨before, text, after, table, q, -, -, -, -, herror, -⟩ | ⟨e, herror, -⟩ :=
    assemble_cases source
  · rw [h] at hok
    cases hok
    exact resolved_of_passes hb hc
  · rw [h] at herror
    cases herror
  · rw [h] at herror
    cases herror

theorem numbers_increase (lines : List Text) : ((instructionLines lines).map Prod.snd).Pairwise (· < ·) := by
  have hsub : ((instructionLines lines).map Prod.snd).Sublist ((lines.zipIdx 1).map Prod.snd) :=
    List.filter_sublist.map Prod.snd
  rw [List.zipIdx_map_snd] at hsub
  exact (List.pairwise_lt_range' (s := 1) (n := lines.length)).sublist hsub

theorem mem_variableNames {lines : List Text} {name : Text} : name ∈ variableNames lines ↔
    (64 :: name) ∈ lines ∧ isSymbol name = true ∧ name ∉ predefined.map Prod.fst ∧ labelText name ∉ lines := by
  unfold variableNames
  rw [List.mem_eraseDups, List.mem_filter, List.mem_filterMap, decide_eq_true_eq]
  constructor
  · rintro ⟨⟨text, htext, hload⟩, hnew⟩
    obtain ⟨rfl, hsymbol⟩ := loadedSymbol?_eq_some.mp hload
    exact ⟨htext, hsymbol, hnew⟩
  · rintro ⟨htext, hsymbol, hnew⟩
    exact ⟨⟨_, htext, loadedSymbol?_eq_some.mpr ⟨rfl, hsymbol⟩⟩, hnew⟩

theorem mem_instructionLines {lines : List Text} {text : Text} (h : text ∈ lines) (hi : isInstruction text = true) :
    ∃ k n : Nat, (instructionLines lines)[k]? = some (text, n) := by
  obtain ⟨i, hlt, rfl⟩ := List.mem_iff_getElem.mp h
  have hmem : (lines[i], 1 + i) ∈ instructionLines lines := by
    unfold instructionLines
    rw [List.mem_filter]
    refine ⟨?_, hi⟩
    rw [List.mem_iff_getElem]
    exact ⟨i, by simpa using hlt, by simp⟩
  obtain ⟨k, hk, heq⟩ := List.mem_iff_getElem.mp hmem
  exact ⟨k, 1 + i, by rw [List.getElem?_eq_getElem hk, heq]⟩

namespace Resolved

section
variable {lines : List Text} {p : Program} (h : Resolved lines p)
include h

theorem length_eq : (instructionLines lines).length = p.words.size := by
  rw [h.words.length_eq, Array.length_toList]

theorem getElem {k : Nat} (hk : k < p.words.size) :
    ∃ text n i word, (instructionLines lines)[k]? = some (text, n) ∧ p.lines[k]? = some n ∧ p.words[k]? = some word ∧
      Spells text i ∧ Encodes p.symbols i word := by
  have hk' : k < (instructionLines lines).length := by rw [h.length_eq]; exact hk
  obtain ⟨i, hspells, hencodes⟩ := h.words.get hk' (by simpa using hk)
  refine ⟨_, _, i, p.words[k], List.getElem?_eq_getElem hk', ?_, Array.getElem?_eq_getElem hk, hspells, hencodes⟩
  rw [← Array.getElem?_toList, h.numbers, List.getElem?_map, List.getElem?_eq_getElem hk']
  rfl

theorem word_of_line {k n : Nat} {text : Text} (hk : (instructionLines lines)[k]? = some (text, n)) :
    ∃ i word, p.words[k]? = some word ∧ Spells text i ∧ Encodes p.symbols i word := by
  obtain ⟨hlt, -⟩ := List.getElem?_eq_some_iff.mp hk
  obtain ⟨text', n', i, word, hline, -, hword, hspells, hencodes⟩ := h.getElem (k := k) (h.length_eq ▸ hlt)
  rw [hk] at hline
  cases hline
  exact ⟨i, word, hword, hspells, hencodes⟩

theorem word_of_symbol {k n : Nat} {name : Text} (hk : (instructionLines lines)[k]? = some (64 :: name, n))
    (hsymbol : isSymbol name = true) : ∃ address, p.symbols[name]? = some address ∧ p.words[k]? = some address := by
  obtain ⟨i, word, hword, hspells, hencodes⟩ := h.word_of_line hk
  rw [hspells.unique (.symbol hsymbol)] at hencodes
  exact ⟨word, hencodes, hword⟩

end

/-- The word of an instruction line stands at the number of instruction lines before it. -/
theorem word_at {before after : List Text} {text : Text} {p : Program}
    (h : Resolved (before ++ text :: after) p) (hi : isInstruction text = true) :
    ∃ i word, p.words[before.countP isInstruction]? = some word ∧ Spells text i ∧ Encodes p.symbols i word := by
  refine h.word_of_line (n := 1 + before.length) ?_
  have hcount : ((before.zipIdx 1).filter fun line => isInstruction line.1).length = before.countP isInstruction := by
    rw [← List.countP_eq_length_filter]
    conv_rhs => rw [← List.zipIdx_map_fst 1 before, List.countP_map]
    rfl
  unfold instructionLines
  rw [List.zipIdx_append, List.filter_append, List.zipIdx_cons, ← hcount, List.getElem?_append_right (Nat.le_refl _),
    Nat.sub_self, List.filter_cons, if_pos hi]
  rfl

end Resolved

end HackStack.Asm
