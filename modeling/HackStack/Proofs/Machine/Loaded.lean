import HackStack.Proofs.Asm.Rendered
import HackStack.Proofs.Machine.Straight

/-!
# Loaded programs

A machine that carries an assembled program fetches the word of an instruction line, and a trap names this line. A line
that loads a constant, a label or a predefined symbol is executed as a load; one that loads a variable is so as long as
there are not too many variables.
-/

namespace HackStack

open Asm

namespace Machine

/-- Whether a program is in the program memory of a machine. -/
def Carries (m : Machine) (p : Program) : Prop := m.rom = p.words ∧ m.lines = p.lines.map Int.ofNat

section
variable {m : Machine} {p : Program}

theorem carries_step (h : m.Carries p) : m.step.1.Carries p := by
  obtain hstep | hstep := m.step_cases
  · rw [hstep]
    exact h
  · rw [hstep]
    exact ⟨(execute_rom m m.word).trans h.1, (execute_lines m m.word).trans h.2⟩

theorem carries_after (h : m.Carries p) (n : Nat) : (m.after n).Carries p := by
  induction n generalizing m with
  | zero => exact h
  | succ n ih => exact ih (carries_step h)

theorem step_trap {t : Trap} (h : m.step.2 = some t) :
    m.pc.toNat < m.rom.size ∧ t.pc = m.pc ∧ t.line = m.lineAt m.pc := by
  unfold step at h
  by_cases hh : m.halted = true
  · rw [if_pos hh] at h
    cases h
  · rw [if_neg hh] at h
    have hlt : m.pc.toNat < m.rom.size := by simpa [halted] using hh
    cases ht : m.trap? with
    | none => rw [ht] at h; cases h
    | some t' =>
      rw [ht] at h
      cases h
      obtain ⟨access, -, rfl⟩ := Option.map_eq_some_iff.mp ht
      exact ⟨hlt, rfl, rfl⟩

theorem step_load {word : UInt16} (hword : m.rom[m.pc.toNat]? = some word) (h : word.toNat ≤ 32767) :
    m.step = ({ m with a := word, pc := m.pc + 1, steps := m.steps + 1 }, none) := by
  obtain ⟨hh, hw⟩ := halted_of_word hword
  have hc : computes word = false := computes_eq_false h
  have ht : m.trap? = none := by simp [trap?, badAccess?, hw, hc]
  rw [step_eq_execute hh ht, hw]
  simp [execute, hc]

end

end Machine

theorem Trap.message_of_line {t : Trap} {n : Nat} (hline : t.line = n) (hn : 0 < n) :
    ∃ rest, t.message =
      ascii "pc " ++ Text.decimal t.pc.toNat ++ ascii ", asm line " ++ Text.decimal n ++ ascii ": " ++ rest := by
  have hpos : 0 < t.line := by omega
  have hsigned : Text.signed t.line = Text.decimal n := by rw [hline]; rfl
  unfold Trap.message
  rw [if_pos hpos, hsigned]
  cases t.access with
  | read => exact ⟨ascii "read M[" ++ Text.decimal t.address.toNat ++ ascii "]: memory access out of range", by simp [ascii]⟩
  | write =>
    exact ⟨ascii "write M[" ++ Text.decimal t.address.toNat ++ ascii "]: memory access out of range", by simp [ascii]⟩

namespace Asm

theorem number_pos {lines : List Text} {k n : Nat} {text : Text} (h : (instructionLines lines)[k]? = some (text, n)) :
    0 < n := by
  have hmem := List.mem_of_getElem? h
  exact List.le_snd_of_mem_zipIdx (List.mem_filter.mp hmem).1

namespace Resolved

section
variable {lines : List Text} {p : Program} (h : Resolved lines p)
include h

theorem trap {m : Machine} (hm : m.Carries p) {t : Trap} (ht : m.step.2 = some t) :
    ∃ text n i word, (instructionLines lines)[m.pc.toNat]? = some (text, n) ∧ t.pc = m.pc ∧ t.line = n ∧
      m.rom[m.pc.toNat]? = some word ∧ Spells text i ∧ Encodes p.symbols i word := by
  obtain ⟨hlt, hpc, hline⟩ := Machine.step_trap ht
  rw [hm.1] at hlt ⊢
  obtain ⟨text, n, i, word, htext, hnumber, hword, hspells, hencodes⟩ := h.getElem hlt
  refine ⟨text, n, i, word, htext, hpc, ?_, hword, hspells, hencodes⟩
  rw [hline, Machine.lineAt, hm.2]
  simp [Array.getD_eq_getD_getElem?, hnumber]

theorem load_word {k n : Nat} {operand : Text} (hk : (instructionLines lines)[k]? = some (64 :: operand, n)) :
    ∃ word, p.words[k]? = some word ∧
      (word.toNat ≤ 32767 ∨ ∃ j, (variableNames lines)[j]? = some operand ∧ word = (16 + j).toUInt16) := by
  obtain ⟨i, word, hword, hspells, hencodes⟩ := h.word_of_line hk
  refine ⟨word, hword, ?_⟩
  generalize htext : 64 :: operand = text at hspells
  cases hspells with
  | constant _ _ hle =>
    rw [hencodes, toNat_toUInt16 (by omega)]
    exact .inl hle
  | symbol hsymbol =>
    cases htext
    obtain hpre | hlabel | hvariable := h.only operand word hencodes
    · obtain ⟨entry, hentry, rfl⟩ := List.mem_map.mp hpre
      have hsmall : ∀ e ∈ predefined, e.2.toNat ≤ 32767 := by decide
      have hfixed := h.fixed entry hentry
      rw [hencodes, Option.some.injEq] at hfixed
      rw [hfixed]
      exact .inl (hsmall entry hentry)
    · obtain ⟨before, after, hlines⟩ := List.append_of_mem hlabel
      obtain ⟨hcount, haddress⟩ := h.label before operand after hlines
      rw [hencodes, Option.some.injEq] at haddress
      rw [haddress, toNat_toUInt16 (by omega)]
      exact .inl hcount
    · obtain ⟨j, hj⟩ := List.mem_iff_getElem?.mp hvariable
      have hallotted := h.allotted j operand hj
      rw [hencodes, Option.some.injEq] at hallotted
      exact .inr ⟨j, hj, hallotted⟩
  | @compute dest comp jump _ =>
    have hhead := (head?_computeText dest comp jump).1
    rw [← htext] at hhead
    exact absurd rfl hhead

theorem loads_small_iff : (variableNames lines).length ≤ 32752 ↔
    ∀ (k n : Nat) (operand : Text) (word : UInt16), (instructionLines lines)[k]? = some (64 :: operand, n) →
      p.words[k]? = some word → word.toNat ≤ 32767 := by
  constructor
  · intro hcount k n operand word hk hword
    obtain ⟨word', hword', hsmall⟩ := h.load_word hk
    rw [hword, Option.some.injEq] at hword'
    subst hword'
    obtain hsmall | ⟨j, hj, rfl⟩ := hsmall
    · exact hsmall
    · obtain ⟨hlt, -⟩ := List.getElem?_eq_some_iff.mp hj
      rw [toNat_toUInt16 (by omega)]
      omega
  · intro hall
    by_contra hcount
    -- The first variable whose address no longer fits is the one at 16 + 32752.
    have hlt : 32752 < (variableNames lines).length := by omega
    have hj := List.getElem?_eq_getElem hlt
    obtain ⟨hline, hsymbol, -⟩ := mem_variableNames.mp (List.mem_of_getElem? hj)
    obtain ⟨k, n, hk⟩ := mem_instructionLines hline rfl
    obtain ⟨address, haddress, hword⟩ := h.word_of_symbol hk hsymbol
    rw [h.allotted 32752 _ hj, Option.some.injEq] at haddress
    have hsmall := hall k n _ address hk hword
    rw [← haddress] at hsmall
    exact absurd hsmall (by decide)

/-- Variables have addresses of their own exactly if there are no more than words of memory. -/
theorem variables_apart_iff : (variableNames lines).length ≤ 65536 ↔
    ∀ name ∈ variableNames lines, ∀ other ∈ variableNames lines, p.symbols[name]? = p.symbols[other]? → name = other := by
  constructor
  · intro hcount name hname other hother heq
    obtain ⟨j, hj⟩ := List.mem_iff_getElem?.mp hname
    obtain ⟨j', hj'⟩ := List.mem_iff_getElem?.mp hother
    obtain ⟨hlt, -⟩ := List.getElem?_eq_some_iff.mp hj
    obtain ⟨hlt', -⟩ := List.getElem?_eq_some_iff.mp hj'
    rw [h.allotted j name hj, h.allotted j' other hj', Option.some.injEq] at heq
    have hmod : (16 + j) % 65536 = (16 + j') % 65536 := congrArg UInt16.toNat heq
    have hindex : j = j' := by omega
    subst hindex
    rw [hj, Option.some.injEq] at hj'
    exact hj'
  · intro hall
    by_contra hcount
    -- The counter has come round to the address of the first variable.
    have hlt : 65536 < (variableNames lines).length := by omega
    have hj := List.getElem?_eq_getElem hlt
    have hj₀ := List.getElem?_eq_getElem (Nat.lt_trans (by decide : 0 < 65536) hlt)
    have heq := hall _ (List.mem_of_getElem? hj₀) _ (List.mem_of_getElem? hj) (by
      rw [h.allotted 0 _ hj₀, h.allotted 65536 _ hj]
      decide)
    have hindex := (nodup_eraseDups _).getElem_inj_iff.mp heq
    exact absurd hindex (by decide)

end

end Resolved

/-- In an accepted text labels and variables have got their addresses, every instruction line has its number and its
code in the program, and a trap of a machine that carries the program names the line of the trapped instruction. -/
theorem symbols_resolved {source : Text} {p : Program} (h : assemble source = .ok p) :
    let lines := contents source
    Resolved lines p ∧ p.lines.toList.Pairwise (· < ·) ∧
    (∀ (k n : Nat) (name : Text), (instructionLines lines)[k]? = some (64 :: name, n) → isSymbol name = true →
      ∃ address, p.symbols[name]? = some address ∧ p.words[k]? = some address) ∧
    (∀ (m : Machine) (n : Nat), ((m.load p).after n).Carries p) ∧
    ∀ (m : Machine) (t : Trap), m.Carries p → m.step.2 = some t →
      ∃ text n i word, (instructionLines lines)[m.pc.toNat]? = some (text, n) ∧ m.rom[m.pc.toNat]? = some word ∧
        Spells text i ∧ Encodes p.symbols i word ∧
        ∃ rest, t.message = ascii "pc " ++ Text.decimal m.pc.toNat ++ ascii ", asm line " ++ Text.decimal n ++
          ascii ": " ++ rest := by
  intro lines
  have hp : Resolved lines p := resolved_of_assemble h
  refine ⟨hp, ?_, ?_, ?_, ?_⟩
  · rw [hp.numbers]
    exact numbers_increase lines
  · intro k n name hk hsymbol
    exact hp.word_of_symbol hk hsymbol
  · intro m n
    exact Machine.carries_after ⟨rfl, rfl⟩ n
  · intro m t hm ht
    obtain ⟨text, n, i, word, hline, hpc, hnumber, hword, hspells, hencodes⟩ := hp.trap hm ht
    obtain ⟨rest, hrest⟩ := t.message_of_line hnumber (number_pos hline)
    rw [hpc] at hrest
    exact ⟨text, n, i, word, hline, hword, hspells, hencodes, rest, hrest⟩

def forwardText : Text := ascii "@END\n0;JMP\n// never\n@x\n(END)\n@y\nM=1\n@x\n"

theorem symbols_resolved_sample :
    ∃ p, assemble forwardText = .ok p ∧ p.symbols[ascii "END"]? = some 3 ∧ p.symbols[ascii "y"]? = some 17 ∧
      ∃ t, (((({ ram := #[0] } : Machine).load p).after 3).step).2 = some t ∧
        ∃ rest, t.message = ascii "pc 4, asm line 7: " ++ rest := by
  obtain ⟨p, hp, hpc, htrap⟩ : ∃ p, assemble forwardText = .ok p ∧
      ((({ ram := #[0] } : Machine).load p).after 3).pc = 4 ∧
        (((({ ram := #[0] } : Machine).load p).after 3).step).2.isSome = true := ok_of_any (by decide +kernel)
  obtain ⟨hresolved, -, -, hcarries, htraps⟩ := symbols_resolved hp
  refine ⟨p, hp, ?_, ?_, ?_⟩
  · exact (hresolved.label [ascii "@END", ascii "0;JMP", [], ascii "@x"] (ascii "END")
      [ascii "@y", ascii "M=1", ascii "@x", []] (by decide)).2
  · exact hresolved.allotted 1 (ascii "y") (by decide +kernel)
  · obtain ⟨t, ht⟩ := Option.isSome_iff_exists.mp htrap
    obtain ⟨text, n, i, word, hline, -, -, -, rest, hrest⟩ := htraps _ t (hcarries _ 3) ht
    have hseven : (instructionLines (contents forwardText))[4]? = some (ascii "M=1", 7) := by decide +kernel
    rw [hpc] at hline hrest
    have hline : (instructionLines (contents forwardText))[4]? = some (text, n) := hline
    rw [hseven] at hline
    cases hline
    exact ⟨t, ht, rest, hrest⟩

/-! ## Loads -/

/-- A line that loads a constant, a label or a predefined symbol has a word below 2^15. All lines that load have one
exactly if there are at most 32752 variables, and the addresses of variables differ exactly if there are at most 65536.
A line with such a word only loads the address register. -/
theorem loads_in_range {source : Text} {p : Program} (h : assemble source = .ok p) :
    let lines := contents source
    (∀ (k n : Nat) (operand : Text), (instructionLines lines)[k]? = some (64 :: operand, n) →
      operand ∉ variableNames lines → ∃ word, p.words[k]? = some word ∧ word.toNat ≤ 32767) ∧
    ((variableNames lines).length ≤ 32752 ↔ ∀ (k n : Nat) (operand : Text) (word : UInt16),
      (instructionLines lines)[k]? = some (64 :: operand, n) → p.words[k]? = some word → word.toNat ≤ 32767) ∧
    ((variableNames lines).length ≤ 65536 ↔ ∀ name ∈ variableNames lines, ∀ other ∈ variableNames lines,
      p.symbols[name]? = p.symbols[other]? → name = other) ∧
    ∀ (m : Machine) (word : UInt16), m.Carries p → p.words[m.pc.toNat]? = some word → word.toNat ≤ 32767 →
      m.step = ({ m with a := word, pc := m.pc + 1, steps := m.steps + 1 }, none) := by
  intro lines
  have hp : Resolved lines p := resolved_of_assemble h
  refine ⟨?_, hp.loads_small_iff, hp.variables_apart_iff, ?_⟩
  · intro k n operand hk hvariable
    obtain ⟨word, hword, hsmall | ⟨j, hj, -⟩⟩ := hp.load_word hk
    · exact ⟨word, hword, hsmall⟩
    · exact absurd (List.mem_of_getElem? hj) hvariable
  · intro m word hm hword hsmall
    exact Machine.step_load (hm.1 ▸ hword) hsmall

/-- Two variables, a constant and a label are loaded; the second variable is the first word behind the label. -/
theorem loads_in_range_sample :
    ∃ p, assemble (ascii "@x\n@32767\n@L\n(L)\n@y\n") = .ok p ∧
      (∃ word, p.words[1]? = some word ∧ word.toNat ≤ 32767) ∧ p.symbols[ascii "x"]? ≠ p.symbols[ascii "y"]? := by
  obtain ⟨p, hp, -⟩ : ∃ p, assemble (ascii "@x\n@32767\n@L\n(L)\n@y\n") = .ok p ∧ True := ok_of_any (by decide +kernel)
  obtain ⟨hloads, -, hapart, -⟩ := loads_in_range hp
  refine ⟨p, hp, hloads 1 2 (ascii "32767") (by decide +kernel) (by decide +kernel), ?_⟩
  intro heq
  have hnames := hapart.mp (by decide +kernel) (ascii "x") (by decide +kernel) (ascii "y") (by decide +kernel) heq
  exact absurd hnames (by decide)

def variableName (k : Nat) : Text := 118 :: Text.decimal k

def variableLoads (n : Nat) : List Line := (List.range n).map fun k => .instruction (.load (.symbol (variableName k)))

theorem isSymbol_variableName (k : Nat) : isSymbol (variableName k) = true :=
  @isSymbol_numbered [118] (by decide) k

theorem contents_variableLoads (n : Nat) :
    contents (render (variableLoads n)) = ((List.range n).map fun k => 64 :: variableName k) ++ [[]] := by
  have hlegal : ∀ l ∈ variableLoads n, l.Legal := by
    intro l hl
    obtain ⟨k, -, rfl⟩ := List.mem_map.mp hl
    exact isSymbol_variableName k
  rw [contents_render hlegal, variableLoads, List.map_map]
  rfl

theorem variableNames_variableLoads (n : Nat) :
    variableNames (contents (render (variableLoads n))) = (List.range n).map variableName := by
  have hnodup : ((List.range n).map variableName).Nodup := by
    refine List.Nodup.map ?_ List.nodup_range
    intro k k' heq
    exact Text.decimal_injective (List.cons.inj heq).2
  have hloads : (contents (render (variableLoads n))).filterMap loadedSymbol? = (List.range n).map variableName := by
    rw [contents_variableLoads, List.filterMap_append, List.filterMap_map]
    have hload : (loadedSymbol? ∘ fun k => 64 :: variableName k) = some ∘ variableName := by
      funext k
      simp [loadedSymbol?, isSymbol_variableName]
    rw [hload, List.filterMap_eq_map]
    simp [loadedSymbol?]
  unfold variableNames
  rw [hloads, List.filter_eq_self.mpr, eraseDups_of_nodup hnodup]
  intro name hname
  obtain ⟨k, -, rfl⟩ := List.mem_map.mp hname
  rw [decide_eq_true_eq]
  constructor
  · intro hpre
    have hhead : ∀ name ∈ predefined.map Prod.fst, name.head? ≠ some 118 := by decide
    exact hhead _ hpre rfl
  · rw [contents_variableLoads]
    simp [labelText, Line.toText]

theorem assemble_variableLoads (n : Nat) : ∃ p, assemble (render (variableLoads n)) = .ok p := by
  rw [assemble_ok_iff, contents_variableLoads]
  intro before text after hlines hne
  have hmem : text ∈ ((List.range n).map fun k => 64 :: variableName k) ++ [[]] := by rw [hlines]; simp
  rw [List.mem_append, List.mem_singleton] at hmem
  obtain ⟨k, -, rfl⟩ := List.mem_map.mp (hmem.resolve_right hne)
  exact .instruction (.symbol (isSymbol_variableName k))

theorem instructionLines_variableLoads {n k : Nat} (hk : k < n) :
    (instructionLines (contents (render (variableLoads n))))[k]? = some (64 :: variableName k, k + 1) := by
  have hall : ∀ line ∈ ((List.range n).map fun k => 64 :: variableName k).zipIdx 1, isInstruction line.1 = true := by
    intro line hline
    obtain ⟨k, -, hk⟩ := List.mem_map.mp (List.fst_mem_of_mem_zipIdx hline)
    rw [← hk]
    rfl
  rw [contents_variableLoads, instructionLines_append]
  unfold instructionLines
  rw [List.filter_eq_self.mpr hall]
  simp [isInstruction, hk, Nat.add_comm 1]

/-- The word for the last of 32753 variables is 2^15, which computes instead of loading, and the first and the last of
65537 variables share an address. -/
theorem variables_beyond_range :
    (∃ p, assemble (render (variableLoads 32753)) = .ok p ∧
      (instructionLines (contents (render (variableLoads 32753))))[32752]? = some (64 :: variableName 32752, 32753) ∧
      p.words[32752]? = some 32768 ∧ Machine.computes 32768 = true) ∧
    ∃ p, assemble (render (variableLoads 65537)) = .ok p ∧
      variableName 0 ∈ variableNames (contents (render (variableLoads 65537))) ∧
      variableName 65536 ∈ variableNames (contents (render (variableLoads 65537))) ∧
      variableName 0 ≠ variableName 65536 ∧ p.symbols[variableName 0]? = some 16 ∧
      p.symbols[variableName 65536]? = some 16 := by
  have hname : ∀ {n k : Nat}, k < n →
      (variableNames (contents (render (variableLoads n))))[k]? = some (variableName k) := by
    intro n k hk
    simp [variableNames_variableLoads, hk]
  constructor
  · obtain ⟨p, hp⟩ := assemble_variableLoads 32753
    have hresolved := resolved_of_assemble hp
    have hline := instructionLines_variableLoads (n := 32753) (k := 32752) (by decide)
    obtain ⟨address, haddress, hword⟩ := hresolved.word_of_symbol hline (isSymbol_variableName _)
    rw [hresolved.allotted 32752 _ (hname (by decide)), Option.some.injEq] at haddress
    exact ⟨p, hp, hline, by rw [hword, ← haddress]; rfl, by decide⟩
  · obtain ⟨p, hp⟩ := assemble_variableLoads 65537
    have hresolved := resolved_of_assemble hp
    refine ⟨p, hp, List.mem_of_getElem? (hname (by decide)), List.mem_of_getElem? (hname (by decide)), ?_, ?_, ?_⟩
    · intro heq
      exact absurd (Text.decimal_injective (List.cons.inj heq).2) (by decide)
    · rw [hresolved.allotted 0 _ (hname (by decide))]
      rfl
    · rw [hresolved.allotted 65536 _ (hname (by decide))]
      rfl

end Asm

end HackStack
