import HackStack.Proofs.Machine.Budgets
import HackStack.Proofs.Machine.Schedule
import Mathlib.Data.Fintype.BigOperators
import Mathlib.Data.Fintype.Pigeonhole

/-!
# Runs that go on for ever

A step depends on the registers, the memory and the program, and not on the number of steps before it. So a machine that
comes back to a state goes round for ever, and one that takes as many steps as it has states has come back to one. A run
without a limit is followed that far, and so what it comes to is what it comes to with any fuel that is enough; and a
core has a tick left after a run exactly if no run of it ends.
-/

namespace HackStack

namespace Machine

/-- Whether a machine executes one instruction after the other without end. -/
def Endless (m : Machine) : Prop := ∀ k, ∃ m', Executes k m m'

/-! ## Executions -/

section
variable {m m' : Machine}

theorem executes_succ {k : Nat} : Executes (k + 1) m m' ↔
    m.halted = false ∧ m.trap? = none ∧ Executes k (m.execute m.word) m' := by
  constructor
  · intro h
    cases h with
    | next hh hstep hrest =>
      have ht : m.trap? = none := trap?_of_step hh (congrArg Prod.snd hstep)
      rw [step_eq_execute hh ht, Prod.mk.injEq] at hstep
      obtain ⟨rfl, -⟩ := hstep
      exact ⟨hh, ht, hrest⟩
  · rintro ⟨hh, ht, hrest⟩
    exact .next hh (step_eq_execute hh ht) hrest

theorem executes_add {i j : Nat} (h : Executes (i + j) m m') : ∃ m'', Executes i m m'' ∧ Executes j m'' m' := by
  induction i generalizing m with
  | zero => exact ⟨m, .none m, by rwa [Nat.zero_add] at h⟩
  | succ i ih =>
    rw [Nat.add_right_comm, executes_succ] at h
    obtain ⟨hh, ht, hrest⟩ := h
    obtain ⟨m'', hi, hj⟩ := ih hrest
    exact ⟨m'', executes_succ.mpr ⟨hh, ht, hi⟩, hj⟩

theorem Executes.unique {k : Nat} {m'' : Machine} (h : Executes k m m') (h' : Executes k m m'') : m' = m'' := by
  induction k generalizing m with
  | zero =>
    cases h
    cases h'
    rfl
  | succ k ih => exact ih (executes_succ.mp h).2.2 (executes_succ.mp h').2.2

theorem Executes.frame {k : Nat} (h : Executes k m m') :
    m'.ram.size = m.ram.size ∧ m'.rom = m.rom ∧ m'.lines = m.lines := by
  induction k generalizing m with
  | zero => cases h; exact ⟨rfl, rfl, rfl⟩
  | succ k ih =>
    obtain ⟨-, -, hrest⟩ := executes_succ.mp h
    obtain ⟨hram, hrom, hlines⟩ := ih hrest
    exact ⟨by rw [hram, execute_ram_size], by rw [hrom, execute_rom], by rw [hlines, execute_lines]⟩

/-- What is executed does not depend on the steps that have been counted. -/
theorem Executes.recount {k : Nat} (h : Executes k m m') (s : Nat) :
    Executes k { m with steps := s } { m' with steps := s + k } := by
  induction k generalizing m s with
  | zero => cases h; exact .none _
  | succ k ih =>
    obtain ⟨hh, ht, hrest⟩ := executes_succ.mp h
    have hexecute : ({ m with steps := s } : Machine).execute m.word = { m.execute m.word with steps := s + 1 } := by
      unfold execute
      split <;> rfl
    have hrest' := ih hrest (s + 1)
    rw [Nat.add_right_comm, Nat.add_assoc] at hrest'
    exact executes_succ.mpr ⟨hh, ht, hexecute ▸ hrest'⟩

end

/-! ## States -/

def state (m : Machine) : List UInt16 := m.a :: m.d :: m.pc :: m.ram.toList

theorem eq_recount {m m' : Machine} (hstate : m'.state = m.state) (hrom : m'.rom = m.rom) (hlines : m'.lines = m.lines) :
    m' = { m with steps := m'.steps } := by
  obtain ⟨a, d, pc, ram, rom, lines, steps⟩ := m
  obtain ⟨a', d', pc', ram', rom', lines', steps'⟩ := m'
  simp only [state, List.cons.injEq, Array.toList_inj] at hstate hrom hlines
  obtain ⟨rfl, rfl, rfl, rfl⟩ := hstate
  subst hrom hlines
  rfl

/-- In as many steps as there are states a machine comes back to one of them. -/
theorem exists_cycle {m m' : Machine} (h : Executes m.stateCount m m') :
    ∃ i k s m'', Executes i m m'' ∧ Executes (k + 1) m'' { m'' with steps := s } := by
  have hway : ∀ i : Fin (m.stateCount + 1), ∃ m'', Executes i m m'' := by
    intro i
    obtain ⟨j, hj⟩ := Nat.exists_eq_add_of_le (Nat.le_of_lt_succ i.isLt)
    obtain ⟨m'', hi, -⟩ := executes_add (hj ▸ h)
    exact ⟨m'', hi⟩
  choose f hf using hway
  -- The states as lists of numbers below 65536, of which there are fewer than machines on the way.
  let g (i : Fin (m.stateCount + 1)) : List.Vector (Fin UInt16.size) (m.ram.size + 3) :=
    ⟨(f i).state.map UInt16.toFin, by simp [state, (hf i).frame.1]⟩
  have hcard : Fintype.card (List.Vector (Fin UInt16.size) (m.ram.size + 3)) <
      Fintype.card (Fin (m.stateCount + 1)) := by
    rw [card_vector, Fintype.card_fin, Fintype.card_fin]
    exact Nat.lt_succ_self _
  obtain ⟨i, j, hne, hsame⟩ := Fintype.exists_ne_map_eq_of_card_lt g hcard
  have hstate : (f i).state = (f j).state := by
    have hlist : (f i).state.map UInt16.toFin = (f j).state.map UInt16.toFin := congrArg Subtype.val hsame
    exact List.map_injective_iff.mpr (fun _ _ => UInt16.toFin_inj.mp) hlist
  clear hsame
  wlog hij : i < j generalizing i j
  · exact this j i hne.symm hstate.symm (lt_of_le_of_ne (not_lt.mp hij) hne.symm)
  · obtain ⟨k, hk⟩ := Nat.exists_eq_add_of_lt (show i.val < j.val from hij)
    have hj := hf j
    rw [hk, Nat.add_assoc] at hj
    obtain ⟨m'', hi, hcycle⟩ := executes_add hj
    obtain rfl := hi.unique (hf i)
    obtain ⟨-, hrom, hlines⟩ := hcycle.frame
    refine ⟨i, k, (f j).steps, f i, hi, ?_⟩
    rw [← eq_recount hstate.symm hrom hlines]
    exact hcycle

theorem endless_of_executes {m m' : Machine} (h : Executes m.stateCount m m') : m.Endless := by
  obtain ⟨i, k, s, m'', hi, hcycle⟩ := exists_cycle h
  have hround : ∀ r, ∃ s, Executes (r * (k + 1)) m'' { m'' with steps := s } := by
    intro r
    induction r with
    | zero => exact ⟨m''.steps, by rw [Nat.zero_mul]; exact .none m''⟩
    | succ r ih =>
      obtain ⟨s', hr⟩ := ih
      rw [Nat.succ_mul]
      exact ⟨_, Core.executes_trans hr (hcycle.recount s')⟩
  intro n
  obtain ⟨s', hr⟩ := hround n
  have hlong : n ≤ i + n * (k + 1) := by
    rw [Nat.mul_succ]
    omega
  obtain ⟨rest, hrest⟩ := Nat.exists_eq_add_of_le hlong
  have hall := Core.executes_trans hi hr
  rw [hrest] at hall
  obtain ⟨m₁, hn, -⟩ := executes_add hall
  exact ⟨m₁, hn⟩

/-! ## Runs -/

theorem Endless.next {m : Machine} (h : m.Endless) :
    m.halted = false ∧ m.trap? = none ∧ (m.execute m.word).Endless := by
  obtain ⟨m₁, h₁⟩ := h 1
  obtain ⟨hh, ht, -⟩ := executes_succ.mp h₁
  refine ⟨hh, ht, fun k => ?_⟩
  obtain ⟨m', h'⟩ := h (k + 1)
  exact ⟨m', (executes_succ.mp h').2.2⟩

theorem Endless.runFor_unfinished : ∀ (fuel : Nat) {m : Machine}, m.Endless → (m.runFor none fuel).2 = .unfinished
  | 0, _, _ => rfl
  | fuel + 1, m, h => by
    obtain ⟨hh, ht, hnext⟩ := h.next
    rw [runFor_eq, stop?_eq_none_iff.mpr ⟨hh, rfl, ht⟩]
    exact hnext.runFor_unfinished fuel

section
variable {limit : Option Nat}

theorem executes_of_unfinished : ∀ (fuel : Nat) {m : Machine}, (m.runFor limit fuel).2 = .unfinished →
    Executes fuel m (m.runFor limit fuel).1
  | 0, m, _ => .none m
  | fuel + 1, m, h => by
    rw [runFor_eq] at h ⊢
    cases hs : m.stop? limit with
    | some o =>
      rw [hs] at h
      obtain rfl : o = .unfinished := h
      exact absurd hs stop?_ne_unfinished
    | none =>
      rw [hs] at h
      obtain ⟨hh, -, ht⟩ := stop?_eq_none_iff.mp hs
      exact executes_succ.mpr ⟨hh, ht, executes_of_unfinished fuel h⟩

theorem runFor_more (extra : Nat) : ∀ {fuel : Nat} {m : Machine}, (m.runFor limit fuel).2 ≠ .unfinished →
    m.runFor limit (fuel + extra) = m.runFor limit fuel
  | 0, _, h => absurd rfl h
  | fuel + 1, m, h => by
    rw [Nat.add_right_comm, runFor_eq, runFor_eq]
    rw [runFor_eq] at h
    cases hs : m.stop? limit with
    | some o => rfl
    | none =>
      rw [hs] at h
      exact runFor_more extra h

/-- A run is unfinished exactly if it has no limit and the machine goes on for ever. -/
theorem run_unfinished_iff {m : Machine} : (m.run limit).2 = .unfinished ↔ limit = none ∧ m.Endless := by
  constructor
  · intro h
    cases limit with
    | none => exact ⟨rfl, endless_of_executes (executes_of_unfinished m.stateCount h)⟩
    | some n =>
      rcases run_stops (n := n) (n - m.steps) (Nat.le_refl _) with ⟨-, -, -, hstop⟩
      rw [h] at hstop
      exact absurd hstop stop?_ne_unfinished
  · rintro ⟨rfl, h⟩
    exact h.runFor_unfinished m.stateCount

/-- A run comes to what it comes to with any fuel that is enough. -/
theorem run_eq_runFor {m : Machine} {fuel : Nat} (h : (m.runFor limit fuel).2 ≠ .unfinished) :
    m.run limit = m.runFor limit fuel := by
  have hrun : (m.run limit).2 ≠ .unfinished := by
    intro hrun
    obtain ⟨rfl, hendless⟩ := run_unfinished_iff.mp hrun
    exact h (hendless.runFor_unfinished fuel)
  unfold run at hrun ⊢
  rw [← runFor_more fuel hrun, Nat.add_comm, runFor_more _ h]

end

end Machine

/-! ## Cores -/

namespace Core

theorem pending_of_runFor {c : Core} {fuel : Nat} (h : (c.runFor fuel).pending = true) : c.pending = true := by
  by_contra hc
  rw [runFor_idle (by simpa using hc)] at h
  exact hc h

theorem executes_of_pending : ∀ (fuel : Nat) {c : Core} {time : Nat}, c.asked = some time →
    (c.runFor fuel).pending = true → Machine.Executes fuel c.machine (c.runFor fuel).machine
  | 0, c, _, _, _ => .none c.machine
  | fuel + 1, c, time, ha, h => by
    have hc : c.pending = true := pending_of_runFor h
    rw [runFor, if_pos hc] at h ⊢
    obtain ⟨-, -, hquiet⟩ | ⟨hexecutes, -, -, -, next, hasked⟩ := handle_cases ha
    · rw [runFor_idle hquiet.pending, hquiet.pending] at h
      cases h
    · rw [Nat.add_comm]
      exact executes_trans hexecutes (executes_of_pending fuel hasked h)

/-- Whether a core handles one tick after the other without end. -/
structure Goes (c : Core) : Prop where
  pending : c.pending = true
  asked : ∃ time, c.asked = some time
  fault : c.fault = none
  limit : c.limit = none
  endless : c.machine.Endless

theorem Goes.handle {c : Core} (h : c.Goes) : c.handle.Goes := by
  obtain ⟨-, ⟨time, ha⟩, hf, hl, hendless⟩ := h
  obtain ⟨hh, ht, hnext⟩ := hendless.next
  have hstart : ({ c with pending := false, time := c.asked.getD c.time } : Core) =
      { c with pending := false, time := time } := by rw [ha]; rfl
  generalize hs : ({ c with pending := false, time := time } : Core) = s at hstart
  have hrunning : ¬ s.Stopped := by simp [← hs, Stopped, hf, hh]
  obtain ⟨hr, -⟩ | ⟨-, ⟨t, hn, -⟩ | ⟨-, htick⟩⟩ := tick_cases hrunning
  · simp [← hs, hl, Machine.reached] at hr
  · simp [← hs, ht] at hn
  · have hhandle : c.handle = s.tick.1.ask (s.tick.1.time + 1) := by
      unfold Core.handle
      rw [hstart, htick]
    obtain ⟨hlimit, htime, hasked, -⟩ := tick_schedule s
    have hgranted : s.tick.1.asked.all (· < s.tick.1.time + 1) = true := by
      rw [hasked, htime, ← hs, ha]
      simp
    rw [hhandle, ask, if_pos hgranted]
    refine ⟨rfl, ⟨_, rfl⟩, ?_, ?_, ?_⟩
    · show s.tick.1.fault = none
      rw [htick, reportHalt_fault, ← hs]
      exact hf
    · show s.tick.1.limit = none
      rw [hlimit, ← hs]
      exact hl
    · show s.tick.1.machine.Endless
      rw [htick, reportHalt_machine, ← hs]
      exact hnext

theorem Goes.runFor : ∀ (fuel : Nat) {c : Core}, c.Goes → (c.runFor fuel).Goes
  | 0, _, h => h
  | fuel + 1, c, h => by
    rw [Core.runFor, if_pos h.pending]
    exact h.handle.runFor fuel

theorem handle_of_fault {c : Core} (h : c.fault.isSome = true) : c.handle.pending = false := by
  have hstopped : ({ c with pending := false, time := c.asked.getD c.time } : Core).Stopped := .inl h
  unfold handle
  rw [tick_stopped hstopped]

/-- A core that has a tick left after a run without a limit has one left after any number of ticks. -/
theorem goes_of_run {c : Core} {time : Nat} (ha : c.asked = some time) (hl : c.limit = none)
    (h : c.run.pending = true) : c.Goes := by
  have hrun : (c.runFor c.machine.stateCount).pending = true := by
    unfold run at h
    rwa [hl] at h
  have hc : c.pending = true := pending_of_runFor hrun
  have hf : c.fault = none := by
    by_contra hf
    have hquiet := handle_of_fault (Option.isSome_iff_ne_none.mpr hf)
    obtain ⟨fuel, hfuel⟩ : ∃ fuel, c.machine.stateCount = fuel + 1 :=
      Nat.exists_eq_succ_of_ne_zero (Nat.pow_pos (by decide)).ne'
    rw [hfuel, runFor, if_pos hc, runFor_idle hquiet, hquiet] at hrun
    cases hrun
  exact ⟨hc, ⟨time, ha⟩, hf, hl, Machine.endless_of_executes (executes_of_pending _ ha hrun)⟩

/-- A core has a tick left after a run exactly if no run of it ends. -/
theorem run_settles {c : Core} (ha : c.pending = true → ∃ time, c.asked = some time) :
    c.run.pending = false ↔ ∃ c', c.Settles c' := by
  constructor
  · exact fun h => ⟨c.run, _, rfl, h⟩
  · rintro ⟨c', fuel, rfl, hend⟩
    cases hl : c.limit with
    | some n => exact pending_run hl ha
    | none =>
      cases hc : c.pending with
      | false =>
        unfold run
        rw [runFor_idle hc]
        exact hc
      | true =>
        obtain ⟨time, ha⟩ := ha hc
        by_contra hrun
        have hgoes := goes_of_run ha hl (by simpa using hrun)
        rw [(hgoes.runFor fuel).pending] at hend
        cases hend

end Core

end HackStack
