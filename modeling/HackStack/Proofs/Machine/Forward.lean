import HackStack.Proofs.Asm.Resolution
import HackStack.Proofs.Machine.Computation

/-!
# Runs that go forward

Generated code never jumps back, so its steps are counted by the program counter. `Forward` collects such steps,
and a run is carried from one machine to the other along them. Code without jumps is followed on the registers
and the memory alone, by `effects`.
-/

namespace HackStack

namespace Machine

/-! ## Forward steps -/

/-- Whether a machine comes to another by steps that all go forward in the program. -/
inductive Forward : Machine → Machine → Prop
  | refl (m : Machine) : Forward m m
  | step {m m' : Machine} : m.halted = false → m.trap? = none → m.pc.toNat < (m.execute m.word).pc.toNat →
      Forward (m.execute m.word) m' → Forward m m'

theorem Forward.single {m : Machine} (hh : m.halted = false) (ht : m.trap? = none)
    (hpc : m.pc.toNat < (m.execute m.word).pc.toNat) : Forward m (m.execute m.word) :=
  .step hh ht hpc (.refl _)

theorem Forward.trans {m₁ m₂ m₃ : Machine} (h : Forward m₁ m₂) (h' : Forward m₂ m₃) : Forward m₁ m₃ := by
  induction h with
  | refl => exact h'
  | step hh ht hpc _ ih => exact .step hh ht hpc (ih h')

theorem execute_steps (m : Machine) (w : UInt16) : (m.execute w).steps = m.steps + 1 := by
  unfold execute
  split <;> rfl

theorem execute_rom (m : Machine) (w : UInt16) : (m.execute w).rom = m.rom := by
  unfold execute
  split <;> rfl

theorem execute_lines (m : Machine) (w : UInt16) : (m.execute w).lines = m.lines := by
  unfold execute
  split <;> rfl

@[simp] theorem execute_ram_size (m : Machine) (word : UInt16) : (m.execute word).ram.size = m.ram.size := by
  unfold execute
  split
  · dsimp only
    split
    · exact Array.size_setIfInBounds
    · rfl
  · rfl

theorem step_eq_execute {m : Machine} (hh : m.halted = false) (ht : m.trap? = none) :
    m.step = (m.execute m.word, none) := by
  simp [step, hh, ht]

theorem Forward.rom {m m' : Machine} (h : Forward m m') : m'.rom = m.rom := by
  induction h with
  | refl => rfl
  | step _ _ _ _ ih => rw [ih, execute_rom]

theorem Forward.steps {m m' : Machine} (h : Forward m m') :
    m.steps ≤ m'.steps ∧ m'.steps + m.pc.toNat ≤ m.steps + m'.pc.toNat := by
  induction h with
  | refl => exact ⟨Nat.le_refl _, Nat.le_refl _⟩
  | step _ _ hpc _ ih =>
    rw [execute_steps] at ih
    omega

theorem runFor_forward {limit : Option Nat} {m m' : Machine} (h : Forward m m')
    (hl : ∀ n, limit = some n → m'.steps ≤ n) (fuel : Nat) :
    runFor limit (fuel + (m'.steps - m.steps)) m = runFor limit fuel m' := by
  induction h with
  | refl => rw [Nat.sub_self, Nat.add_zero]
  | @step m m' hh ht hpc hf ih =>
    have hsteps := hf.steps.1
    rw [execute_steps] at hsteps
    have hreached : m.reached limit = false := by
      unfold reached
      cases limit with
      | none => rfl
      | some n =>
        have := hl n rfl
        simp only [decide_eq_false_iff_not]
        omega
    have hfuel : fuel + (m'.steps - m.steps) = fuel + (m'.steps - (m.execute m.word).steps) + 1 := by
      rw [execute_steps]; omega
    rw [hfuel, runFor, hh, hreached, ht]
    exact ih hl

theorem lt_stateCount (m : Machine) : 65535 < m.stateCount := by
  have hpow : 65536 ^ 1 ≤ 65536 ^ (m.ram.size + 3) := Nat.pow_le_pow_right (by decide) (by omega)
  exact hpow

theorem run_forward {limit : Option Nat} {m m' : Machine} (h : Forward m m')
    (hl : ∀ n, limit = some n → m'.steps ≤ n) : ∃ fuel, run limit m = runFor limit (fuel + 1) m' := by
  have hsteps := h.steps
  unfold run
  cases limit with
  | none =>
    have hcount := m.lt_stateCount
    have hpc := m'.pc.toNat_lt
    refine ⟨m.stateCount - (m'.steps - m.steps) - 1, ?_⟩
    rw [← runFor_forward h hl]
    congr 1
    simp only
    omega
  | some n =>
    have hn := hl n rfl
    refine ⟨n - m'.steps, ?_⟩
    rw [← runFor_forward h hl]
    congr 1
    simp only
    omega

/-! ## Steps -/

/-- A machine after `n` steps. One that has halted or runs into a trap stays as it is. -/
def after (m : Machine) : Nat → Machine
  | 0 => m
  | n + 1 => m.step.1.after n

theorem step_cases (m : Machine) : m.step.1 = m ∨ m.step = (m.execute m.word, none) := by
  unfold step
  by_cases hh : m.halted = true
  · exact .inl (by rw [if_pos hh])
  · rw [if_neg hh]
    cases m.trap? with
    | some t => exact .inl rfl
    | none => exact .inr rfl

theorem step_halted {m : Machine} (h : m.halted = true) : m.step.1 = m := by
  simp [step, h]

theorem step_trapped {m : Machine} {t : Trap} (h : m.trap? = some t) : m.step.1 = m := by
  unfold step
  split
  · rfl
  · rw [h]

/-- A machine comes forward by a number of steps, and before the last one it is still on the way. -/
theorem Forward.exists_after {m m' : Machine} (h : Forward m m') :
    ∃ n, m.after n = m' ∧ ∀ j < n, (m.after j).halted = false ∧ (m.after j).trap? = none ∧
      m.pc.toNat ≤ (m.after j).pc.toNat ∧ (m.after j).pc.toNat < m'.pc.toNat := by
  induction h with
  | refl m => exact ⟨0, rfl, nofun⟩
  | @step m m' hh ht hpc hf ih =>
    obtain ⟨n, rfl, hway⟩ := ih
    have hle : (m.execute m.word).pc.toNat ≤ ((m.execute m.word).after n).pc.toNat := by
      have hsteps := hf.steps
      omega
    have hstep : m.step.1 = m.execute m.word := congrArg Prod.fst (step_eq_execute hh ht)
    refine ⟨n + 1, by rw [after, hstep], fun j hj => ?_⟩
    cases j with
    | zero => exact ⟨hh, ht, Nat.le_refl _, Nat.lt_of_lt_of_le hpc hle⟩
    | succ j =>
      obtain ⟨hh', ht', hfrom, hto⟩ := hway j (Nat.lt_of_succ_lt_succ hj)
      rw [after, hstep]
      exact ⟨hh', ht', by omega, hto⟩

/-- Steps in a program are steps in any program that has the same words at the same places. -/
theorem Forward.transfer {m m' : Machine} (h : Forward m m') {rom : Array UInt16}
    (hrom : ∀ (k : Nat) (word : UInt16), m.rom[k]? = some word → rom[k]? = some word) :
    Forward { m with rom := rom } { m' with rom := rom } := by
  induction h with
  | refl m => exact .refl _
  | @step m m' hh ht hpc hf ih =>
    have hlt : m.pc.toNat < m.rom.size := by simpa [halted] using hh
    have hword := hrom _ _ (Array.getElem?_eq_getElem hlt)
    have hsame : ({ m with rom := rom } : Machine).word = m.word := by
      simp [word, Array.getD_eq_getD_getElem?, hword, hlt]
    have hexecute : ({ m with rom := rom } : Machine).execute m.word = { m.execute m.word with rom := rom } := by
      unfold execute
      split <;> rfl
    have htrap : m.badAccess? m.word = none := Option.map_eq_none_iff.mp ht
    refine .step ?_ ?_ ?_ ?_
    · obtain ⟨hlt', -⟩ := Array.getElem?_eq_some_iff.mp hword
      simpa [halted] using hlt'
    · rw [trap?, hsame, Option.map_eq_none_iff]
      exact htrap
    · rw [hsame, hexecute]
      exact hpc
    · rw [hsame, hexecute]
      exact ih (by rw [execute_rom]; exact hrom)

end Machine

end HackStack
