import HackStack.Proofs.Machine.Faults
import HackStack.Proofs.Machine.Ticks

/-!
# Runs with a budget

A run with a budget of steps looks at the machine before every step: the program has halted, the budget is used up, or
the next instruction traps. `stop?` says which, and the run is followed by it without counting fuel. A run goes the
same way whatever its budget is, so a run that was stopped by a smaller one can be taken up again.
-/

namespace HackStack

namespace Machine

/-! ## One look at the machine -/

/-- What ends a run at a machine, if it ends there. -/
def stop? (limit : Option Nat) (m : Machine) : Option Outcome :=
  if m.halted then some .halted
  else if m.reached limit then some .stepLimit
  else m.trap?.map .trapped

theorem runFor_eq (limit : Option Nat) (fuel : Nat) (m : Machine) : runFor limit (fuel + 1) m =
    match m.stop? limit with
    | some o => (m, o)
    | none => runFor limit fuel (m.execute m.word) := by
  rw [runFor, stop?]
  by_cases hh : m.halted = true
  · simp [hh]
  · by_cases hr : m.reached limit = true
    · simp [hh, hr]
    · cases m.trap? <;> simp [hh, hr]

section
variable {n : Nat} {m : Machine}

theorem stop?_eq_none_iff {limit : Option Nat} : m.stop? limit = none ↔
    m.halted = false ∧ m.reached limit = false ∧ m.trap? = none := by
  unfold stop?
  by_cases hh : m.halted = true
  · simp [hh]
  · by_cases hr : m.reached limit = true
    · simp [hh, hr]
    · simp [hh, hr]

theorem stop?_eq_none : m.stop? (some n) = none ↔ m.halted = false ∧ m.steps < n ∧ m.trap? = none := by
  simp [stop?_eq_none_iff, reached]

theorem stop?_eq_halted : m.stop? (some n) = some .halted ↔ m.halted = true := by
  unfold stop?
  by_cases hh : m.halted = true
  · simp [hh]
  · by_cases hr : m.reached (some n) = true
    · simp [hh, hr]
    · simp [hh, hr]

theorem stop?_eq_stepLimit : m.stop? (some n) = some .stepLimit ↔ m.halted = false ∧ n ≤ m.steps := by
  unfold stop? reached
  by_cases hh : m.halted = true
  · simp [hh]
  · by_cases hr : n ≤ m.steps
    · simp [hh, hr]
    · simp [hh, hr]

theorem stop?_eq_trapped {t : Trap} : m.stop? (some n) = some (.trapped t) ↔
    m.halted = false ∧ m.steps < n ∧ m.trap? = some t := by
  unfold stop? reached
  by_cases hh : m.halted = true
  · simp [hh]
  · by_cases hr : n ≤ m.steps
    · simp [hh, hr]
    · simp [hh, hr, Nat.lt_of_not_le hr]

theorem stop?_ne_unfinished {limit : Option Nat} : m.stop? limit ≠ some .unfinished := by
  unfold stop?
  by_cases hh : m.halted = true
  · simp [hh]
  · by_cases hr : m.reached limit = true
    · simp [hh, hr]
    · simp [hh, hr]

/-! ## Whole runs -/

theorem run_of_stop {o : Outcome} (h : m.stop? (some n) = some o) : m.run (some n) = (m, o) := by
  rw [run, runFor_eq, h]

-- The fuel of a run is what is left of the budget, and a step takes one of both.
theorem run_of_go (h : m.stop? (some n) = none) : m.run (some n) = (m.execute m.word).run (some n) := by
  rcases stop?_eq_none.mp h with ⟨-, hlt, -⟩
  have hfuel : n - m.steps = n - (m.execute m.word).steps + 1 := by
    rw [execute_steps]
    omega
  rw [run, run, runFor_eq, h]
  simp only [hfuel]

theorem run_stops : ∀ (budget : Nat) {m : Machine}, n - m.steps ≤ budget →
    ∃ k ≤ n - m.steps, Executes k m (m.run (some n)).1 ∧
      (m.run (some n)).1.stop? (some n) = some (m.run (some n)).2 := by
  intro budget
  induction budget with
  | zero =>
    intro m hbudget
    cases hs : m.stop? (some n) with
    | some o =>
      rw [run_of_stop hs]
      exact ⟨0, Nat.zero_le _, .none m, hs⟩
    | none =>
      rcases stop?_eq_none.mp hs with ⟨-, hlt, -⟩
      omega
  | succ budget ih =>
    intro m hbudget
    cases hs : m.stop? (some n) with
    | some o =>
      rw [run_of_stop hs]
      exact ⟨0, Nat.zero_le _, .none m, hs⟩
    | none =>
      rcases stop?_eq_none.mp hs with ⟨hh, hlt, ht⟩
      have hsteps : (m.execute m.word).steps = m.steps + 1 := execute_steps m m.word
      rcases ih (m := m.execute m.word) (by omega) with ⟨k, hk, hexecutes, hstop⟩
      rw [run_of_go hs]
      exact ⟨k + 1, by omega, .next hh (step_eq_execute hh ht) hexecutes, hstop⟩

/-- A run goes through every machine that it can execute its way to within the budget. -/
theorem run_of_executes {k : Nat} {m' : Machine} (h : Executes k m m') (hk : k ≤ n - m.steps) :
    m'.run (some n) = m.run (some n) := by
  induction h with
  | none => rfl
  | @next k m m₁ m₂ hh hstep _ ih =>
    have ht : m.trap? = none := trap?_of_step hh (congrArg Prod.snd hstep)
    rw [step_eq_execute hh ht, Prod.mk.injEq] at hstep
    rcases hstep with ⟨rfl, -⟩
    rw [run_of_go (stop?_eq_none.mpr ⟨hh, by omega, ht⟩)]
    apply ih
    rw [execute_steps]
    omega

theorem run_run {k : Nat} (h : k ≤ n) (m : Machine) : (m.run (some k)).1.run (some n) = m.run (some n) := by
  rcases run_stops (n := k) (k - m.steps) (Nat.le_refl _) with ⟨steps, hsteps, hexecutes, -⟩
  apply run_of_executes hexecutes
  omega

end

/-- A run with a positive budget ends. It has halted, or used up its budget, or come to an instruction that traps, and
it has executed no more instructions than were left. A run with a smaller budget before it changes nothing. -/
theorem bounded_runs_compose (c : Machine) {m n : Int} (hm : 0 < m) (hmn : m ≤ n) :
    let full := c.run (limitOf n)
    (∃ k : Nat, (k : Int) ≤ max 0 (n - c.steps) ∧ Executes k c full.1) ∧
    (full.2 = .halted ↔ full.1.halted = true) ∧
    (full.2 = .stepLimit ↔ full.1.halted = false ∧ n ≤ full.1.steps) ∧
    (∀ t, full.2 = .trapped t ↔ full.1.halted = false ∧ full.1.steps < n ∧ full.1.step.2 = some t) ∧
    full.2 ≠ .unfinished ∧
    (c.run (limitOf m)).1.run (limitOf n) = full := by
  intro full
  lift n to Nat using by omega
  lift m to Nat using by omega
  have hlimit : limitOf n = some n := limitOf_eq_some.mpr ⟨by omega, rfl⟩
  have hlimit' : limitOf m = some m := limitOf_eq_some.mpr ⟨hm, rfl⟩
  have hfull : full = c.run (some n) := congrArg c.run hlimit
  rcases run_stops (n := n) (n - c.steps) (Nat.le_refl _) with ⟨k, hk, hexecutes, hstop⟩
  rw [← hfull] at hexecutes hstop
  refine ⟨⟨k, by omega, hexecutes⟩, ?_, ?_, fun t => ?_, ?_, ?_⟩
  · rw [← stop?_eq_halted (n := n), hstop, Option.some.injEq]
  · rw [Int.ofNat_le, ← stop?_eq_stepLimit, hstop, Option.some.injEq]
  · have hstep : full.1.halted = false → (full.1.step.2 = some t ↔ full.1.trap? = some t) := fun hh => by
      simp [step_eq_some, hh]
    rw [Int.ofNat_lt, and_congr_right fun hh => and_congr_right fun _ => hstep hh, ← stop?_eq_trapped, hstop,
      Option.some.injEq]
  · intro hunfinished
    rw [hunfinished] at hstop
    exact stop?_ne_unfinished hstop
  · rw [hlimit, hlimit', hfull]
    exact run_run (by omega) c

def farWriter : Machine := { ram := #[0, 0, 0, 0], rom := #[7, 0xEC10, 9, 0xE308] }

theorem bounded_runs_compose_sample :
    (0 : Int) < 2 ∧ (2 : Int) ≤ 5 ∧ (farWriter.run (limitOf 2)).2 = .stepLimit ∧
    (farWriter.run (limitOf 5)).2 = .trapped ⟨3, 0, .write, 9⟩ ∧
    (farWriter.run (limitOf 2)).1.run (limitOf 5) = farWriter.run (limitOf 5) :=
  ⟨by decide, by decide, by decide +kernel, by decide +kernel,
    (bounded_runs_compose farWriter (by decide) (by decide)).2.2.2.2.2⟩

end Machine

end HackStack
