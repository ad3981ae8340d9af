import HackStack.Proofs.Simulation.Refinement
import HackStack.Proofs.Translation.Files
import HackStack.Simulation

/-!
# The outcome of a simulation

The memory that a simulation prepares represents a stack machine with an empty stack. The program that it runs
implements the commands of the source, so it ends in a memory that represents the machine after them, and the stack
and the cells are read out of that memory.
-/

namespace HackStack

open Asm Reference

/-! ## Preparation -/

/-- The number that a simulation starts with at an address. -/
def Setup.number (setup : Setup) (a : UInt16) : Int16 := Int16.ofInt ((setup.ram[(a.toNat : Int)]?).getD 0)

/-- The stack machine that a simulation starts as. -/
def StackMachine.start (setup : Setup) : StackMachine := .ofCells setup.number

namespace Simulation

theorem poke_eq {m : Machine} {a : UInt16} (h : a.toNat < m.ram.size) (v : Int) :
    m.poke? a.toNat v = some { m with ram := Memory.write m.ram a (wordOfInt v) } := by
  unfold Machine.poke?
  rw [if_pos ⟨Int.natCast_nonneg _, by simpa using h⟩]
  simp [Memory.write]

theorem fill_ok : ∀ {entries : List (Int × Int)} {m : Machine},
    (∀ e ∈ entries, ∃ a : UInt16, e.1 = a.toNat ∧ a.toNat < m.ram.size) →
    entries.Pairwise (fun e e' => e.1 ≠ e'.1) →
    ∃ ram : Memory, fill m entries = .ok { m with ram := ram } ∧ ram.size = m.ram.size ∧
      (∀ (a : UInt16) (v : Int), ((a.toNat : Int), v) ∈ entries → ram.read a = wordOfInt v) ∧
      ∀ a : UInt16, (∀ v, ((a.toNat : Int), v) ∉ entries) → ram.read a = Memory.read m.ram a
  | [], m, _, _ => ⟨m.ram, rfl, rfl, nofun, fun _ _ => rfl⟩
  | (address, value) :: rest, m, hrange, hdistinct => by
    obtain ⟨⟨a, haddress, ha⟩, hrest⟩ := List.forall_mem_cons.mp hrange
    obtain ⟨hfirst, hothers⟩ := List.pairwise_cons.mp hdistinct
    simp only at haddress
    subst haddress
    have hrest' : ∀ e ∈ rest, ∃ b : UInt16, e.1 = b.toNat ∧
        b.toNat < (Memory.write m.ram a (wordOfInt value)).size := by simpa using hrest
    obtain ⟨ram, hfill, hsize, hstored, hsame⟩ :=
      fill_ok (m := { m with ram := Memory.write m.ram a (wordOfInt value) }) hrest' hothers
    refine ⟨ram, ?_, ?_, ?_, ?_⟩
    · rw [fill, poke_eq ha]
      exact hfill
    · simpa using hsize
    · intro b v hb
      rcases List.mem_cons.mp hb with hb | hb
      · -- No later entry has this address, so the value stays.
        simp only [Prod.mk.injEq, Int.natCast_inj, UInt16.toNat_inj] at hb
        obtain ⟨rfl, rfl⟩ := hb
        rw [hsame b fun w hw => hfirst _ hw rfl]
        exact Memory.read_write_self ha _
      · exact hstored b v hb
    · intro b hb
      have hne : a ≠ b := by
        rintro rfl
        exact hb value List.mem_cons_self
      rw [hsame b fun w hw => hb w (List.mem_cons_of_mem _ hw)]
      exact Memory.read_write_ne hne _ _

theorem mem_of_mem_toList {ram : MemoryImage} {address value : Int} (h : (address, value) ∈ ram.toList) :
    address ∈ ram := by
  rw [Std.TreeMap.mem_iff_isSome_getElem?, Std.TreeMap.mem_toList_iff_getElem?_eq_some.mp h]
  rfl

theorem wordOfInt_natCast {n : Nat} (h : n < 65536) : wordOfInt n = n.toUInt16 := by
  apply UInt16.toNat_inj.mp
  have hleft : (wordOfInt n).toNat = ((n : Int) % 65536).toNat % 65536 := rfl
  rw [hleft, toNat_toUInt16 h]
  omega

section
variable (setup : Setup) {m : Machine} {base : Nat} (hbase : setup.stackBase = base) (hroom : base < m.ram.size)
variable (hsmall : m.ram.size ≤ 65535) (hblank : ∀ a, Memory.read m.ram a = 0)
variable (hzero : (0 : Int) ∉ setup.ram) (hram : ∀ a ∈ setup.ram, 0 ≤ a ∧ a < m.ram.size)
include hbase hroom hsmall hblank hzero hram

/-- Preparing a blank memory leaves the base in the stack pointer and the numbers of the setup in all other cells. -/
theorem prepare_ok : ∃ ram : Memory, prepare m setup = .ok { m with ram := ram } ∧ ram.size = m.ram.size ∧
    ram.read 0 = base.toUInt16 ∧ ∀ a ≠ 0, ram.read a = (setup.number a).toUInt16 := by
  have hpos : (0 : UInt16).toNat < m.ram.size := Nat.lt_of_le_of_lt (Nat.zero_le _) hroom
  have hpoke : m.poke? 0 setup.stackBase = some { m with ram := Memory.write m.ram 0 (wordOfInt base) } :=
    hbase ▸ poke_eq hpos base
  have hrange : ∀ e ∈ setup.ram.toList, ∃ a : UInt16, e.1 = a.toNat ∧
      a.toNat < (Memory.write m.ram 0 (wordOfInt base)).size := by
    rintro ⟨address, value⟩ he
    obtain ⟨hlow, hhigh⟩ := hram address (mem_of_mem_toList he)
    refine ⟨address.toNat.toUInt16, ?_⟩
    rw [toNat_toUInt16 (by omega), Memory.size_write]
    simp only
    omega
  have hdistinct : setup.ram.toList.Pairwise fun e e' => e.1 ≠ e'.1 := by
    refine Std.TreeMap.distinct_keys_toList.imp fun hne heq => hne ?_
    rw [heq]
    exact Std.ReflCmp.compare_self
  obtain ⟨ram, hfill, hsize, hstored, hsame⟩ :=
    fill_ok (m := { m with ram := Memory.write m.ram 0 (wordOfInt base) }) hrange hdistinct
  refine ⟨ram, ?_, by simpa using hsize, ?_, ?_⟩
  · unfold prepare
    rw [if_neg (by omega), hpoke]
    exact hfill
  · rw [hsame 0 fun v hv => hzero (mem_of_mem_toList hv), ← wordOfInt_natCast (by omega)]
    exact Memory.read_write_self hpos _
  · intro a ha
    unfold Setup.number
    rw [← wordOfInt_eq]
    cases hv : setup.ram[(a.toNat : Int)]? with
    | some v => exact hstored a v (Std.TreeMap.mem_toList_iff_getElem?_eq_some.mpr hv)
    | none =>
      rw [hsame a fun v hv' => ?_, Memory.read_write_ne (Ne.symm ha), hblank]
      · rfl
      · rw [Std.TreeMap.mem_toList_iff_getElem?_eq_some.mp hv'] at hv
        cases hv

end

theorem read_new (size : Int) (a : UInt16) : Memory.read (Machine.new size).ram a = 0 := by
  unfold Memory.read Machine.new
  rw [Array.getD_eq_getD_getElem?, Array.getElem?_replicate]
  generalize (if size ≤ 0 then Machine.defaultRamSize else size.toNat) = n
  by_cases hn : a.toNat < n
  · rw [if_pos hn]
    rfl
  · rw [if_neg hn]
    rfl

end Simulation

/-! ## Reading out -/

namespace StackMachine
variable {area : Area} {ram : Memory} {s : StackMachine}

theorem represents_start {setup : Setup} (hsize : ram.size = area.size) (hpointer : ram.read 0 = area.base.toUInt16)
    (hcells : ∀ a ≠ 0, ram.read a = (setup.number a).toUInt16) : Represents area ram (start setup) where
  size := hsize
  depth := area.ordered
  pointer := hpointer
  stack := trivial
  cells a ha := by
    unfold start
    rw [cell_ofCells, hcells a ha.notPointer]

section
variable {m : Machine} (h : Represents area m.ram s)
include h

theorem Represents.stackPointer_eq : m.stackPointer = area.base + s.stack.length := by
  have hpointer : m.stackPointer = (Memory.read m.ram 0).toNat := rfl
  rw [hpointer, h.pointer, area.toNat_slot h.depth]

theorem Represents.stack_eq : m.stack? area.base = some (s.stack.reverse.map Int16.toInt) := by
  have hdepth := h.depth
  have hhigh := area.high
  have hsmall := area.small
  have hsize := h.size
  unfold Machine.stack?
  rw [h.stackPointer_eq]
  by_cases hempty : s.stack = []
  · rw [if_pos (.inl (by simp [hempty])), hempty]
    rfl
  · have hpos : 0 < s.stack.length := List.length_pos_iff.mpr hempty
    rw [if_neg (by omega), if_neg (by omega), Int.toNat_natCast, h.stack.extract (by omega) (by omega)]

theorem Represents.peek_eq {a : UInt16} (ha : area.Outside a) : m.peek? a.toNat = some (s.cell a).toInt := by
  have hinside : a.toNat < m.ram.size := h.size ▸ ha.inside
  rw [Machine.peek?_toNat hinside, h.cells a ha, signedWord_toUInt16]

end

end StackMachine

/-! ## Simulations -/

open StackMachine

theorem Translator.implements_file {annotate : Bool} {name source : Text} {t : Translator MemorySink}
    (h : (new annotate false ({} : MemorySink)).file name (.ok source) = (t, none)) :
    (∀ c ∈ sourceCommands source, Valid c) ∧
      ∃ ls, t.sink.text = render ls ∧ Implements ls ((sourceCommands source).map (0, ·)) := by
  obtain ⟨hvalid, -, ls, htext, himpl⟩ := advances_file rfl h
  have hfirst : ((new annotate false ({} : MemorySink)).generator.setFile name).staticFirst = 0 := by
    unfold Generator.setFile
    split <;> rfl
  refine ⟨hvalid, ls, htext, ?_⟩
  rw [← hfirst]
  exact himpl

theorem Setup.limit_withDefaults {setup : Setup} {words : Nat} (hwords : words ≤ 65535)
    (h : setup.maxSteps ≤ 0 ∨ (words : Int) ≤ setup.maxSteps) :
    ∀ n, Machine.limitOf setup.withDefaults.maxSteps = some n → words ≤ n := by
  have hmax : setup.withDefaults.maxSteps = if setup.maxSteps = 0 then 100000 else setup.maxSteps := rfl
  intro n hn
  unfold Machine.limitOf at hn
  by_cases hpos : 0 < setup.withDefaults.maxSteps
  · rw [if_pos hpos, Option.some.injEq] at hn
    rw [hmax] at hpos hn
    by_cases h0 : setup.maxSteps = 0
    · rw [if_pos h0] at hn
      omega
    · rw [if_neg h0] at hpos hn
      omega
  · rw [if_neg hpos] at hn
    cases hn

section
variable {source : Text} {setup : Setup} {t : Translator MemorySink} {p : Program}

theorem simulate_eq {m : Machine}
    (ht : (Translator.new setup.annotate setup.staticSymbols ({} : MemorySink)).file setup.withDefaults.fileName
      (.ok source) = (t, none))
    (hp : assemble t.sink.text = .ok p)
    (hm : Simulation.prepare (Machine.new setup.ramSize) setup.withDefaults = .ok m) :
    simulate source setup = (t.log, .ok (Simulation.execute setup.withDefaults t t.sink.text p m)) := by
  have hannotate : setup.withDefaults.annotate = setup.annotate := rfl
  have hsymbols : setup.withDefaults.staticSymbols = setup.staticSymbols := rfl
  have hramSize : setup.withDefaults.ramSize = setup.ramSize := rfl
  unfold simulate
  simp only [hannotate, hsymbols, ht, Simulation.ofTranslation, hp, hramSize, hm]

/-- A source that a stack machine can do is simulated to the end, and the simulation shows what the machine has: the
stack, bottom first, and the numbers outside the stack area. -/
theorem simulate_refines (hsymbols : setup.staticSymbols = false)
    (ht : (Translator.new setup.annotate false ({} : MemorySink)).file setup.withDefaults.fileName (.ok source) =
      (t, none))
    (hp : assemble t.sink.text = .ok p) (hwords : p.words.size ≤ 65535)
    {base size : Nat} (hbase : setup.withDefaults.stackBase = base)
    (hsize : (Machine.new setup.ramSize).ram.size = size) (hlow : 256 ≤ base) (hroom : base < size)
    (hsmall : size ≤ 65535) (hzero : (0 : Int) ∉ setup.ram) (hram : ∀ a ∈ setup.ram, 0 ≤ a ∧ a < size)
    (hsteps : setup.maxSteps ≤ 0 ∨ (p.words.size : Int) ≤ setup.maxSteps)
    {final : StackMachine} (hrun : (start setup).run (sourceCommands source) = some final)
    {depth : Nat} (hdepth : (start setup).deepest (sourceCommands source) = depth) (hdeep : base + depth ≤ size)
    (hwindow : ∀ a ∈ (start setup).accesses (sourceCommands source),
      256 ≤ a.toNat ∧ a.toNat < size ∧ ¬ (base ≤ a.toNat ∧ a.toNat < base + depth)) :
    ∃ log sim, simulate source setup = (log, .ok sim) ∧ sim.ended = true ∧ sim.error = none ∧
      sim.stack = some (final.stack.reverse.map Int16.toInt) ∧
      sim.machine.stackPointer = base + final.stack.length ∧
      ∀ a : UInt16, a.toNat < size → a ≠ 0 → a ≠ 13 → ¬ (base ≤ a.toNat ∧ a.toNat < base + depth) →
        sim.machine.peek? a.toNat = some (final.cell a).toInt := by
  subst hsize
  -- The memory that the simulation prepares represents the machine at the start.
  obtain ⟨ram, hprepare, hsize, hpointer, hcells⟩ := Simulation.prepare_ok setup.withDefaults hbase hroom hsmall
    (Simulation.read_new _) hzero hram
  let area : Area := ⟨base, base + depth, _, hlow, Nat.le_add_right _ _, hdeep, hsmall⟩
  have hstart : Represents area ram (start setup) := represents_start hsize hpointer hcells
  -- So the commands fit in it, and the program ends in a memory that represents the machine at the end.
  obtain ⟨hvalid, ls, htext, himpl⟩ := Translator.implements_file ht
  obtain ⟨hfits, hfinal⟩ := hstart.run hvalid hrun (by rw [hdepth]) fun a ha =>
    ⟨(hwindow a ha).1, (hwindow a ha).2.1, (hwindow a ha).2.2⟩
  have hregisters : 16 ≤ ram.size := by omega
  obtain ⟨m, hhalt, hend, -, -⟩ := himpl.run_halted (m := { Machine.new setup.ramSize with ram := ram }) (htext ▸ hp)
    hwords hregisters (Setup.limit_withDefaults hwords hsteps) hfits
  rw [← hend] at hfinal
  refine ⟨_, _, simulate_eq (hsymbols ▸ ht) hp hprepare, ?_⟩
  simp only [Simulation.execute, hhalt]
  refine ⟨rfl, rfl, ?_, hfinal.stackPointer_eq, fun a hinside h0 h13 hapart => hfinal.peek_eq ⟨hinside, h0, h13, hapart⟩⟩
  rw [hbase]
  exact hfinal.stack_eq

end

def sampleSource : Text := ascii "push local 0\npush constant 7\nadd\npop static 3\npush static 3\n"

/-- A memory of 512 words in which the local segment begins at 300 with a 5. -/
def sampleSetup : Setup where
  stackBase := 256
  ram := (∅ : MemoryImage).insert 1 300 |>.insert 300 5
  maxSteps := 1000
  ramSize := 512

def sampleTranslation : Translator MemorySink × Option Error :=
  (Translator.new false false ({} : MemorySink)).file (ascii "Main.vm") (.ok sampleSource)

theorem sampleTranslation_eq : sampleTranslation = (sampleTranslation.1, none) :=
  Prod.ext rfl (by decide +kernel)

theorem sourceCommands_sample : sourceCommands sampleSource =
    [.push (ascii "local") 0, .push (ascii "constant") 7, .arithmetic (ascii "add"), .pop (ascii "static") 3,
      .push (ascii "static") 3] := by
  decide +kernel

theorem sampleProgram_ok : ∃ p, assemble sampleTranslation.1.sink.text = .ok p ∧ p.words.size ≤ 1000 :=
  ok_of_any (by decide +kernel)

theorem simulate_refines_sample :
    ∃ log sim, simulate sampleSource sampleSetup = (log, .ok sim) ∧ sim.ended = true ∧ sim.error = none ∧
      sim.stack = some [12] ∧ sim.machine.stackPointer = 257 ∧ sim.machine.peek? 19 = some 12 := by
  obtain ⟨p, hp, hwords⟩ := sampleProgram_ok
  have hram : ∀ a ∈ sampleSetup.ram, 0 ≤ a ∧ a < (512 : Nat) := by
    intro a ha
    simp [sampleSetup, Std.TreeMap.mem_insert] at ha
    omega
  have hok : ((start sampleSetup).run (sourceCommands sampleSource)).map (fun s => (s.stack, s.cell 19)) =
      some ([12], 12) := by
    rw [sourceCommands_sample]
    decide +kernel
  obtain ⟨final, hrun, hfinal⟩ := Option.map_eq_some_iff.mp hok
  rw [Prod.mk.injEq] at hfinal
  have hsymbols : sampleSetup.staticSymbols = false := rfl
  have hbase : sampleSetup.withDefaults.stackBase = (256 : Nat) := rfl
  have hsize : (Machine.new sampleSetup.ramSize).ram.size = 512 := by decide +kernel
  have hdepth : (start sampleSetup).deepest (sourceCommands sampleSource) = 2 := by
    rw [sourceCommands_sample]
    decide +kernel
  have hwindow : ∀ a ∈ (start sampleSetup).accesses (sourceCommands sampleSource),
      256 ≤ a.toNat ∧ a.toNat < 512 ∧ ¬ (256 ≤ a.toNat ∧ a.toNat < 256 + 2) := by
    have haccesses : (start sampleSetup).accesses (sourceCommands sampleSource) = [300] := by
      rw [sourceCommands_sample]
      decide +kernel
    rw [haccesses]
    exact List.forall_mem_singleton.mpr (by decide)
  obtain ⟨log, sim, hsim, hended, herror, hstack, hpointer, hcells⟩ := simulate_refines hsymbols sampleTranslation_eq hp
    (Nat.le_trans hwords (by decide)) hbase hsize (by decide) (by decide) (by decide) (by decide +kernel) hram
    (.inr (Int.ofNat_le.mpr hwords)) hrun hdepth (by decide) hwindow
  refine ⟨log, sim, hsim, hended, herror, ?_, ?_, ?_⟩
  · rw [hstack, hfinal.1]
    rfl
  · rw [hpointer, hfinal.1]
    rfl
  · have hcell := hcells 19 (by decide) (by decide) (by decide) (by decide)
    rw [hfinal.2] at hcell
    exact hcell

/-- The sample with one more entry, at an address that no memory has. -/
def straySetup : Setup := { sampleSetup with ram := sampleSetup.ram.insert (-1) 5 }

/-- Such an entry changes nothing for the stack machine, but its memory cannot be prepared. -/
theorem stray_entry_not_simulated :
    (∃ p, sampleTranslation = (sampleTranslation.1, none) ∧ assemble sampleTranslation.1.sink.text = .ok p ∧
        p.words.size ≤ straySetup.maxSteps) ∧ straySetup.staticSymbols = false ∧ straySetup.maxSteps ≤ 65535 ∧
      straySetup.stackBase = 256 ∧ (Machine.new straySetup.ramSize).ram.size = 512 ∧ (0 : Int) ∉ straySetup.ram ∧
      ((start straySetup).run (sourceCommands sampleSource)).map (·.stack) = some [12] ∧
      (start straySetup).deepest (sourceCommands sampleSource) = 2 ∧
      (start straySetup).accesses (sourceCommands sampleSource) = [300] ∧
      ∀ log sim, simulate sampleSource straySetup ≠ (log, .ok sim) := by
  obtain ⟨p, hp, hwords⟩ := sampleProgram_ok
  rw [sourceCommands_sample]
  refine ⟨⟨p, sampleTranslation_eq, hp, Int.ofNat_le.mpr hwords⟩, rfl, by decide, rfl, by decide +kernel,
    by decide +kernel, by decide +kernel, by decide +kernel, by decide +kernel, ?_⟩
  intro log sim hsim
  have hnone : (simulate sampleSource straySetup).2.toOption.isNone = true := by decide +kernel
  rw [hsim] at hnone
  cases hnone

end HackStack
