import HackStack.Proofs.Machine.Ends
import Mathlib.Data.Nat.Bitwise

/-!
# Steps that fail

An instruction is executed in stages: it reads a memory word, computes, writes the memory word, sets the registers and
jumps. A stage that fails keeps what the stages before it have done. Only the two accesses can fail, and nothing has
changed before the second of them; so an instruction that fails leaves the machine as it was, and the stages come to
what a step does.
-/

namespace HackStack

namespace Machine

/-! ## Stages -/

/-- Stages of an instruction. One that fails leaves the machine as the stages so far have made it. -/
abbrev Stage := EStateM Access Machine

namespace Stage

def read : Stage UInt16 := do
  let m ← get
  if m.a.toNat < m.ram.size then return m.ram.getD m.a.toNat 0 else throw .read

def write (value : UInt16) : Stage Unit := do
  let m ← get
  if m.a.toNat < m.ram.size then set { m with ram := m.ram.setIfInBounds m.a.toNat value } else throw .write

/-- Sets the registers, one after the other. A jump goes to the address from before. -/
def settle (word address out : UInt16) : Stage Unit := do
  if word &&& 32 ≠ 0 then modify fun m => { m with a := out }
  if word &&& 16 ≠ 0 then modify fun m => { m with d := out }
  modify fun m => { m with pc := if jumps out (word &&& 7) then address else m.pc + 1 }

def compute (word : UInt16) : Stage Unit := do
  let address := (← get).a
  let y ← if readsMemory word then read else pure address
  let out := alu (← get).d y ((word >>> 6) &&& 0x3F)
  if writesMemory word then write out
  settle word address out

def load (word : UInt16) : Stage Unit := modify fun m => { m with a := word, pc := m.pc + 1 }

end Stage

/-- A step in stages. The instruction counts once it is done. -/
def stages : Stage Unit := do
  let m ← get
  unless m.halted do
    if computes m.word then Stage.compute m.word else Stage.load m.word
    modify fun m => { m with steps := m.steps + 1 }

namespace Stage

variable {m : Machine} {word : UInt16}

theorem read_run (m : Machine) : read.run m =
    if m.a.toNat < m.ram.size then .ok (m.ram.getD m.a.toNat 0) m else .error .read m := by
  by_cases h : m.a.toNat < m.ram.size
  · simp [read, h]
  · simp [read, h]
    rfl

theorem write_run (m : Machine) (value : UInt16) : (write value).run m =
    if m.a.toNat < m.ram.size then .ok () { m with ram := m.ram.setIfInBounds m.a.toNat value }
    else .error .write m := by
  by_cases h : m.a.toNat < m.ram.size
  · rw [if_pos h]
    simp [write, h]
  · simp [write, h]

theorem settle_run (m : Machine) (word address out : UInt16) : (settle word address out).run m =
    .ok () { m with
      a := if word &&& 32 ≠ 0 then out else m.a
      d := if word &&& 16 ≠ 0 then out else m.d
      pc := if jumps out (word &&& 7) then address else m.pc + 1 } := by
  unfold settle
  by_cases ha : word &&& 32 = 0 <;> by_cases hd : word &&& 16 = 0 <;> simp [ha, hd]

theorem compute_served (hc : computes word = true)
    (h : readsMemory word = true ∨ writesMemory word = true → m.a.toNat < m.ram.size) :
    (compute word).run m = .ok () { m.execute word with steps := m.steps } := by
  unfold compute execute
  rw [if_pos hc]
  by_cases hr : readsMemory word = true
  · have hin : m.a.toNat < m.ram.size := h (.inl hr)
    by_cases hw : writesMemory word = true
    · simp [hr, hw, hin, EStateM.run_bind, read_run, write_run, settle_run]
    · simp [hr, hw, hin, EStateM.run_bind, read_run, settle_run]
  · by_cases hw : writesMemory word = true
    · have hin : m.a.toNat < m.ram.size := h (.inr hw)
      simp [hr, hw, hin, EStateM.run_bind, write_run, settle_run]
    · simp [hr, hw, EStateM.run_bind, settle_run]

-- A write fails on the machine that the instruction began with, since reading changes nothing.
theorem compute_failed (hout : m.ram.size ≤ m.a.toNat) (h : readsMemory word = true ∨ writesMemory word = true) :
    (compute word).run m = .error (if readsMemory word then .read else .write) m := by
  by_cases hr : readsMemory word = true
  · simp [compute, EStateM.run_bind, hr, read_run, Nat.not_lt.mpr hout]
  · have hw : writesMemory word = true := h.resolve_left hr
    simp [compute, EStateM.run_bind, hr, hw, write_run, Nat.not_lt.mpr hout]

end Stage

/-! ## Traps -/

/-- Whether the memory has the word that the next step reads or writes, if it does either. -/
def Serves (m : Machine) : Prop :=
  computes m.word = true → readsMemory m.word = true ∨ writesMemory m.word = true → m.a.toNat < m.ram.size

section
variable {m : Machine}

theorem trap?_eq_some {t : Trap} : m.trap? = some t ↔
    (computes m.word = true ∧ (readsMemory m.word = true ∨ writesMemory m.word = true) ∧ m.ram.size ≤ m.a.toNat) ∧
      t = ⟨m.pc, m.lineAt m.pc, if readsMemory m.word then .read else .write, m.a⟩ := by
  unfold trap? badAccess?
  by_cases hc : computes m.word = true
  · by_cases hout : m.ram.size ≤ m.a.toNat
    · by_cases hr : readsMemory m.word = true
      · simp [hc, hout, hr]
        exact eq_comm
      · by_cases hw : writesMemory m.word = true
        · simp [hc, hout, hr, hw]
          exact eq_comm
        · simp [hc, hout, hr, hw]
    · simp [hc, hout]
  · simp [hc]

theorem trap?_eq_none : m.trap? = none ↔ m.Serves := by
  rw [Option.eq_none_iff_forall_ne_some]
  unfold Serves
  constructor
  · intro h hc haccess
    by_contra hout
    exact h _ (trap?_eq_some.mpr ⟨⟨hc, haccess, Nat.le_of_not_lt hout⟩, rfl⟩)
  · intro h t ht
    rcases trap?_eq_some.mp ht with ⟨⟨hc, haccess, hout⟩, -⟩
    exact absurd (h hc haccess) (Nat.not_lt.mpr hout)

def Has (m : Machine) (address : Int) : Prop := 0 ≤ address ∧ address < m.ram.size

/-- The addresses that the next instruction reads or writes. -/
def stepAddresses (m : Machine) : List Int :=
  if computes m.word && (readsMemory m.word || writesMemory m.word) then [(m.a.toNat : Int)] else []

theorem serves_iff : m.Serves ↔ ∀ address ∈ m.stepAddresses, m.Has address := by
  unfold Serves stepAddresses Has
  cases computes m.word <;> cases readsMemory m.word <;> cases writesMemory m.word <;> simp

/-! ## Steps -/

theorem step_eq_some {t : Trap} : m.step.2 = some t ↔ m.halted = false ∧ m.trap? = some t := by
  unfold step
  by_cases hh : m.halted = true
  · simp [hh]
  · cases m.trap? <;> simp [hh]

theorem trap?_of_step (hh : m.halted = false) (h : m.step.2 = none) : m.trap? = none := by
  by_contra htrap
  rcases Option.ne_none_iff_exists'.mp htrap with ⟨t, ht⟩
  rw [step_eq_some.mpr ⟨hh, ht⟩] at h
  cases h

/-- An instruction is executed exactly if all addresses that it reads or writes are in the memory. -/
theorem step_eq_none (hh : m.halted = false) : m.step.2 = none ↔ ∀ address ∈ m.stepAddresses, m.Has address := by
  rw [← serves_iff, ← trap?_eq_none]
  refine ⟨trap?_of_step hh, fun ht => ?_⟩
  rw [step_eq_execute hh ht]

theorem word_of_running (h : m.halted = false) : m.rom[m.pc.toNat]? = some m.word := by
  have hlt : m.pc.toNat < m.rom.size := by simpa [halted] using h
  simp [word, hlt]

theorem getElem?_execute (m : Machine) (word : UInt16) {i : Nat} (hi : i ≠ m.a.toNat) :
    (m.execute word).ram[i]? = m.ram[i]? := by
  unfold execute
  by_cases hc : computes word = true
  · by_cases hw : writesMemory word = true
    · simp [hc, hw, Array.getElem?_setIfInBounds_ne hi.symm]
    · simp [hc, hw]
  · simp [hc]

end

theorem stages_run (m : Machine) : stages.run m =
    match m.step with
    | (m', none) => .ok () m'
    | (m', some t) => .error t.access m' := by
  unfold stages step
  by_cases hh : m.halted = true
  · simp [hh]
  · cases ht : m.trap? with
    | some t =>
      rcases trap?_eq_some.mp ht with ⟨⟨hc, haccess, hout⟩, rfl⟩
      simp [hh, hc, EStateM.run_bind, Stage.compute_failed hout haccess]
    | none =>
      have hserves : m.Serves := trap?_eq_none.mp ht
      by_cases hc : computes m.word = true
      · have hsteps : m.steps + 1 = (m.execute m.word).steps := (execute_steps m m.word).symm
        simp [hh, hc, EStateM.run_bind, Stage.compute_served hc (hserves hc), hsteps]
      · simp [hh, hc, EStateM.run_bind, Stage.load, execute]

/-! ## Bits of a word -/

theorem and_two_pow_ne_zero (w : UInt16) {k : Nat} (hk : k < 16) :
    w &&& (2 ^ k).toUInt16 ≠ 0 ↔ w.toNat.testBit k = true := by
  have hlt : 2 ^ k < 2 ^ 16 := Nat.pow_lt_pow_right (by decide) hk
  have hpow : (2 ^ k).toUInt16.toNat = 2 ^ k := Nat.mod_eq_of_lt hlt
  have hand : (w &&& (2 ^ k).toUInt16).toNat = (w.toNat.testBit k).toNat * 2 ^ k := by
    rw [UInt16.toNat_and, hpow, Nat.and_two_pow]
  rw [ne_eq, ← UInt16.toNat_inj, hand]
  cases w.toNat.testBit k <;> simp

theorem computes_iff (w : UInt16) : computes w = true ↔ w.toNat.testBit 15 = true := by
  rw [← and_two_pow_ne_zero w (k := 15) (by decide)]
  exact decide_eq_true_iff

theorem readsMemory_iff (w : UInt16) : readsMemory w = true ↔ w.toNat.testBit 12 = true := by
  rw [← and_two_pow_ne_zero w (k := 12) (by decide)]
  exact decide_eq_true_iff

theorem writesMemory_iff (w : UInt16) : writesMemory w = true ↔ w.toNat.testBit 3 = true := by
  rw [← and_two_pow_ne_zero w (k := 3) (by decide)]
  exact decide_eq_true_iff

theorem message_ending (t : Trap) : ascii ": memory access out of range" <:+ t.message := by
  have hending : ascii "]: memory access out of range" = 93 :: ascii ": memory access out of range" := rfl
  unfold Trap.message
  rw [hending, List.append_cons]
  exact List.suffix_append _ _

/-- A step fails exactly if the next word computes, reads or writes memory and has an address beyond it. Then nothing
has changed, also not by the stages that were done, and the step fails in the same way however often it is repeated. In
all other cases one instruction has been executed, and no memory word has changed but the one at the old address. -/
theorem failed_step_changes_nothing (m : Machine) :
    ((∃ t, m.step.2 = some t) ↔ ∃ w, m.rom[m.pc.toNat]? = some w ∧ w.toNat.testBit 15 = true ∧
      (w.toNat.testBit 12 = true ∨ w.toNat.testBit 3 = true) ∧ m.ram.size ≤ m.a.toNat) ∧
    (∀ t, m.step.2 = some t → (∀ n, m.after n = m ∧ (m.after n).step = (m, some t)) ∧
      t = ⟨m.pc, m.lineAt m.pc, if m.word.toNat.testBit 12 then .read else .write, m.a⟩ ∧
      ascii ": memory access out of range" <:+ t.message) ∧
    (m.halted = false → m.step.2 = none → m.step.1.steps = m.steps + 1 ∧ m.step.1.rom = m.rom ∧
      m.step.1.ram.size = m.ram.size ∧ ∀ i, i ≠ m.a.toNat → m.step.1.ram[i]? = m.ram[i]?) ∧
    (m.halted = true → m.step = (m, none)) ∧
    stages.run m = match m.step with
      | (m', none) => .ok () m'
      | (m', some t) => .error t.access m' := by
  refine ⟨⟨?_, ?_⟩, ?_, ?_, ?_, stages_run m⟩
  · rintro ⟨t, ht⟩
    rcases step_eq_some.mp ht with ⟨hh, ht⟩
    rcases trap?_eq_some.mp ht with ⟨⟨hc, haccess, hout⟩, -⟩
    rw [computes_iff] at hc
    rw [readsMemory_iff, writesMemory_iff] at haccess
    exact ⟨m.word, word_of_running hh, hc, haccess, hout⟩
  · rintro ⟨w, hw, hc, haccess, hout⟩
    rcases halted_of_word hw with ⟨hh, rfl⟩
    rw [← computes_iff] at hc
    rw [← readsMemory_iff, ← writesMemory_iff] at haccess
    exact ⟨_, step_eq_some.mpr ⟨hh, trap?_eq_some.mpr ⟨⟨hc, haccess, hout⟩, rfl⟩⟩⟩
  · intro t ht
    rcases step_eq_some.mp ht with ⟨-, htrap⟩
    have hstays : m.step.1 = m := step_trapped htrap
    have hstep : m.step = (m, some t) := Prod.ext hstays ht
    refine ⟨fun n => ?_, ?_, message_ending t⟩
    · rw [after_of_stays hstays n]
      exact ⟨rfl, hstep⟩
    · rcases trap?_eq_some.mp htrap with ⟨-, rfl⟩
      simp only [readsMemory_iff]
  · intro hh hnone
    rw [step_eq_execute hh (trap?_of_step hh hnone)]
    exact ⟨execute_steps _ _, execute_rom _ _, execute_ram_size _ _, fun i hi => getElem?_execute m m.word hi⟩
  · intro hh
    simp [step, hh]

/-- A machine whose only word is no instruction of the assembler: it computes, and reads and writes memory. -/
def bareMachine (address pc : UInt16) : Machine :=
  { a := address, d := 7, pc := pc, ram := #[1, 2, 3], rom := #[0x9008], lines := #[4], steps := 2 }

theorem failed_step_changes_nothing_sample :
    (bareMachine 5 0).step.2 = some ⟨0, 4, .read, 5⟩ ∧ (∀ n, (bareMachine 5 0).after n = bareMachine 5 0) ∧
    (bareMachine 1 0).step.1.ram[2]? = some 3 ∧ (bareMachine 1 0).step.1.ram[1]? = some (7 &&& 2) ∧
    (bareMachine 1 9).step = (bareMachine 1 9, none) := by
  have hfails : (bareMachine 5 0).step.2 = some ⟨0, 4, .read, 5⟩ := by decide +kernel
  have hserves : (bareMachine 1 0).halted = false ∧ (bareMachine 1 0).step.2 = none := by decide +kernel
  refine ⟨hfails, fun n => ((failed_step_changes_nothing _).2.1 _ hfails).1 n |>.1, ?_, by decide +kernel,
    (failed_step_changes_nothing _).2.2.2.1 (by decide +kernel)⟩
  exact ((failed_step_changes_nothing _).2.2.1 hserves.1 hserves.2).2.2.2 2 (by decide +kernel)

end Machine

end HackStack
