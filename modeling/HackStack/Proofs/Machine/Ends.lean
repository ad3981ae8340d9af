import HackStack.Proofs.Machine.Straight

/-!
# How runs end

A machine that goes forward to the end of its program halts there, unless it traps on the way, and needs no more steps
than the program has words. Whether it gets there is asked of its code. In a program with a word at every address no
machine has halted, and a run ends only at its limit or in a trap.
-/

namespace HackStack

open Asm

namespace Machine

/-! ## Machines that proceed -/

/-- Whether a machine goes forward to one with a property, or into a trap. -/
def Proceeds (m : Machine) (P : Machine → Prop) : Prop :=
  ∃ m', Forward m m' ∧ (P m' ∨ m'.halted = false ∧ ∃ t, m'.trap? = some t)

theorem Forward.proceeds {m m' : Machine} {P : Machine → Prop} (h : Forward m m') (h' : m'.Proceeds P) :
    m.Proceeds P := by
  obtain ⟨m'', hf, hend⟩ := h'
  exact ⟨m'', h.trans hf, hend⟩

theorem Proceeds.then {m : Machine} {P Q : Machine → Prop} (h : m.Proceeds P)
    (h' : ∀ m', Forward m m' → P m' → m'.Proceeds Q) : m.Proceeds Q := by
  obtain ⟨m', hf, hp | htrap⟩ := h
  · exact hf.proceeds (h' m' hf hp)
  · exact ⟨m', hf, .inr htrap⟩

theorem Proceeds.mono {m : Machine} {P Q : Machine → Prop} (h : m.Proceeds P) (hPQ : ∀ m', P m' → Q m') :
    m.Proceeds Q :=
  h.then fun m' _ hp => ⟨m', .refl m', .inl (hPQ m' hp)⟩

theorem proceeds_straight {σ : Text → UInt16} {m : Machine} (hs : m.rom.size ≤ 65535) {ls : List Line}
    (hp : Placed m.rom σ m.pc.toNat ls) (hi : ∀ i ∈ instructions ls, i.Straight σ) :
    m.Proceeds fun m' => effects σ ls m.data = some m'.data ∧ m'.pc.toNat = m.pc.toNat + (instructions ls).length := by
  cases he : effects σ ls m.data with
  | none =>
    obtain ⟨m', t, hf, hh, ht⟩ := trapped_straight hp hs hi he
    exact ⟨m', hf, .inr ⟨hh, t, ht⟩⟩
  | some s =>
    obtain ⟨m', hf, hd, hpc⟩ := forward_straight hp hs hi he
    exact ⟨m', hf, .inl ⟨by rw [hd], hpc⟩⟩

/-! ## Ends of runs -/

theorem after_of_stays {m : Machine} (h : m.step.1 = m) : ∀ k, m.after k = m
  | 0 => rfl
  | k + 1 => by rw [after, h, after_of_stays h k]

/-- On the way to a machine that has halted or traps, every step that succeeds goes forward. -/
theorem Forward.increases {m m' : Machine} (h : Forward m m') (hend : m'.halted = true ∨ ∃ t, m'.trap? = some t) :
    ∀ k, (m.after k).halted = false → (m.after k).step.2 = none →
      (m.after k).pc.toNat < (m.after k).step.1.pc.toNat := by
  induction h with
  | refl m =>
    intro k hh ht
    obtain hend | ⟨t, hend⟩ := hend
    · rw [after_of_stays (step_halted hend), hend] at hh
      cases hh
    · rw [after_of_stays (step_trapped hend)] at hh ht
      simp [Machine.step, hh, hend] at ht
  | step hh ht hpc _ ih =>
    intro k
    cases k with
    | zero =>
      rw [after, step_eq_execute hh ht]
      exact fun _ _ => hpc
    | succ k =>
      rw [after, step_eq_execute hh ht]
      exact ih hend k

section
variable {m : Machine} {p : Program} (h : (m.load p).Proceeds fun m' => m'.pc.toNat = p.words.size)
include h

theorem proceeds_ends : ∃ m', Forward (m.load p) m' ∧ m'.steps ≤ p.words.size ∧
    (m'.halted = true ∨ m'.halted = false ∧ m'.steps < p.words.size ∧ ∃ t, m'.trap? = some t) := by
  obtain ⟨m', hf, hend⟩ := h
  have hsteps : m'.steps ≤ m'.pc.toNat := by
    have hle := hf.steps.2
    have hstart : (m.load p).steps = 0 ∧ (m.load p).pc.toNat = 0 := ⟨rfl, rfl⟩
    omega
  have hrom : m'.rom.size = p.words.size := by rw [hf.rom]; rfl
  refine ⟨m', hf, ?_⟩
  obtain hpc | ⟨hh, ht⟩ := hend
  · have hh : m'.halted = true := by simp [halted, hrom, hpc]
    exact ⟨by omega, .inl hh⟩
  · have hlt : m'.pc.toNat < p.words.size := by simpa [halted, hrom] using hh
    exact ⟨by omega, .inr ⟨hh, by omega, ht⟩⟩

theorem run_proceeds {limit : Option Nat}
    (hlimit : ∀ n, limit = some n → p.words.size ≤ n) :
    ∃ m', m'.steps ≤ p.words.size ∧
      ((m.load p).run limit = (m', .halted) ∨ ∃ t, (m.load p).run limit = (m', .trapped t)) := by
  obtain ⟨m', hf, hsteps, hend⟩ := proceeds_ends h
  obtain ⟨fuel, hrun⟩ := run_forward hf fun n hn => Nat.le_trans hsteps (hlimit n hn)
  refine ⟨m', hsteps, ?_⟩
  rw [hrun, runFor]
  obtain hh | ⟨hh, hlt, t, ht⟩ := hend
  · exact .inl (by rw [if_pos hh])
  · have hreached : m'.reached limit = false := by
      cases limit with
      | none => rfl
      | some n =>
        have hn := hlimit n rfl
        simp only [reached, decide_eq_false_iff_not]
        omega
    exact .inr ⟨t, by rw [hh, hreached, ht]; rfl⟩

end

/-! ## Runs that never halt -/

theorem halted_eq_false {m : Machine} (h : 65536 ≤ m.rom.size) : m.halted = false := by
  have hpc := m.pc.toNat_lt
  simp only [halted, decide_eq_false_iff_not]
  omega

theorem runFor_succ {m : Machine} (h : m.halted = false) (limit : Option Nat) (fuel : Nat) :
    m.reached limit = true ∧ runFor limit (fuel + 1) m = (m, .stepLimit) ∨
      (∃ t, runFor limit (fuel + 1) m = (m, .trapped t)) ∨
        m.reached limit = false ∧ runFor limit (fuel + 1) m = runFor limit fuel (m.execute m.word) := by
  rw [runFor, h]
  by_cases hr : m.reached limit = true
  · exact .inl ⟨hr, by simp [hr]⟩
  · cases ht : m.trap? with
    | some t => exact .inr (.inl ⟨t, by simp [hr]⟩)
    | none => exact .inr (.inr ⟨by simpa using hr, by simp [hr]⟩)

/-- A run that cannot halt comes to its limit or to a trap, or it uses up its fuel before the limit. -/
theorem runFor_ends (limit : Option Nat) (fuel : Nat) {m : Machine} (h : 65536 ≤ m.rom.size) :
    ∃ m', runFor limit fuel m = (m', .stepLimit) ∨ (∃ t, runFor limit fuel m = (m', .trapped t)) ∨
      runFor limit fuel m = (m', .unfinished) ∧ ∀ n, limit = some n → fuel = 0 ∨ m.steps + fuel ≤ n := by
  induction fuel generalizing m with
  | zero => exact ⟨m, .inr (.inr ⟨rfl, fun _ _ => .inl rfl⟩)⟩
  | succ fuel ih =>
    obtain ⟨-, hrun⟩ | ⟨t, hrun⟩ | ⟨hreached, hrun⟩ := runFor_succ (halted_eq_false h) limit fuel
    · exact ⟨m, .inl hrun⟩
    · exact ⟨m, .inr (.inl ⟨t, hrun⟩)⟩
    · have hrom : 65536 ≤ (m.execute m.word).rom.size := by rw [execute_rom]; exact h
      obtain ⟨m', hlimit | htrap | ⟨hunfinished, hfuel⟩⟩ := ih hrom
      · exact ⟨m', .inl (hrun.trans hlimit)⟩
      · exact ⟨m', .inr (.inl (hrun.symm ▸ htrap))⟩
      · refine ⟨m', .inr (.inr ⟨hrun.trans hunfinished, ?_⟩)⟩
        rintro n rfl
        -- The step was taken, so the limit had not been reached before it.
        have hlt : ¬ n ≤ m.steps := of_decide_eq_false hreached
        have hle := hfuel n rfl
        rw [execute_steps] at hle
        omega

theorem run_ends {m : Machine} (h : 65536 ≤ m.rom.size) (n : Nat) :
    ∃ m', run (some n) m = (m', .stepLimit) ∨ ∃ t, run (some n) m = (m', .trapped t) := by
  obtain ⟨m', hend⟩ := runFor_ends (some n) (n - m.steps + 1) h
  refine ⟨m', ?_⟩
  obtain hlimit | htrap | ⟨-, hfuel⟩ := hend
  · exact .inl hlimit
  · exact .inr htrap
  · have hle := hfuel n rfl
    omega

theorem limitOf_eq_some {maxSteps : Int} {n : Nat} : limitOf maxSteps = some n ↔ 0 < maxSteps ∧ maxSteps = n := by
  unfold limitOf
  split
  · rw [Option.some.injEq]
    omega
  · simp only [reduceCtorEq, false_iff]
    omega

end Machine

end HackStack
