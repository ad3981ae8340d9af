import HackStack.Error
import HackStack.Proofs.Machine.Forward

/-!
# Ticks of a core and runs of its machine

A core looks at its fault, the end of the program, the step limit and the next instruction one tick at a time, a
run looks at the last three in a loop. `tick_cases` says all that a tick can do; from it the ticks of a mapped
program are the steps of a run, up to the first tick that executes nothing, and nothing happens after that one.
-/

namespace HackStack

namespace Machine

/-- Whether a machine comes to another by executing `n` instructions. -/
inductive Executes : Nat → Machine → Machine → Prop
  | none (m : Machine) : Executes 0 m m
  | next {n : Nat} {m m₁ m₂ : Machine} : m.halted = false → m.step = (m₁, Option.none) → Executes n m₁ m₂ →
      Executes (n + 1) m m₂

theorem Executes.steps {n : Nat} {m m' : Machine} (h : Executes n m m') : m'.steps = m.steps + n := by
  induction h with
  | none => rfl
  | @next n m m₁ m₂ hh hs _ ih =>
    have hstep : m₁.steps = m.steps + 1 := by
      unfold step at hs
      rw [hh] at hs
      cases ht : m.trap? with
      | some t => simp [ht] at hs
      | none =>
        simp only [ht, Bool.false_eq_true, if_false, Prod.mk.injEq, and_true] at hs
        rw [← hs, execute_steps]
    omega

end Machine

namespace Core

/-! ## One tick -/

/-- Whether a core executes nothing more: it has a fault, or its program has halted. -/
def Stopped (c : Core) : Prop := c.fault.isSome = true ∨ c.machine.halted = true

@[simp] theorem stop_machine (c : Core) (f : CoreFault) : (c.stop f).machine = c.machine := rfl

@[simp] theorem stop_fault (c : Core) (f : CoreFault) : (c.stop f).fault = some f := rfl

@[simp] theorem reportHalt_machine (c : Core) : c.reportHalt.machine = c.machine := by
  unfold reportHalt
  split <;> rfl

@[simp] theorem reportHalt_fault (c : Core) : c.reportHalt.fault = c.fault := by
  unfold reportHalt
  split <;> rfl

@[simp] theorem reportHalt_limit (c : Core) : c.reportHalt.limit = c.limit := by
  unfold reportHalt
  split <;> rfl

theorem tick_stopped {c : Core} (h : c.Stopped) : c.tick = (c, false) := by
  have hor : (c.fault.isSome || c.machine.halted) = true := by simpa [Stopped] using h
  simp [tick, hor]

/-- A tick of a core that has not stopped finds the limit reached, or a trap ahead, or executes an instruction. -/
theorem tick_cases {c : Core} (h : ¬ c.Stopped) :
    (c.machine.reached c.limit = true ∧ c.tick = (c.stop .stepLimit, false)) ∨
      c.machine.reached c.limit = false ∧
        ((∃ t, c.machine.trap? = some t ∧ c.tick = (c.stop (.trapped t), false)) ∨
          (c.machine.trap? = none ∧
            c.tick = ({ c with machine := c.machine.execute c.machine.word }.reportHalt, true))) := by
  have hor : (c.fault.isSome || c.machine.halted) = false := by simpa [Stopped] using h
  unfold tick
  rw [if_neg (by simp [hor])]
  cases hr : c.machine.reached c.limit with
  | true => exact .inl ⟨rfl, rfl⟩
  | false =>
    refine .inr ⟨rfl, ?_⟩
    cases ht : c.machine.trap? with
    | some t => exact .inl ⟨t, rfl, rfl⟩
    | none => exact .inr ⟨rfl, rfl⟩

theorem not_stopped {c : Core} (h : ¬ c.Stopped) : c.fault = none ∧ c.machine.halted = false := by
  unfold Stopped at h
  push Not at h
  exact ⟨by simpa using h.1, by simpa using h.2⟩

theorem tick_true {c : Core} (h : c.tick.2 = true) :
    c.machine.halted = false ∧ c.machine.step = (c.tick.1.machine, none) := by
  by_cases hs : c.Stopped
  · rw [tick_stopped hs] at h
    cases h
  · obtain ⟨-, hh⟩ := not_stopped hs
    obtain ⟨-, ht⟩ | ⟨-, ⟨t, -, ht⟩ | ⟨hn, ht⟩⟩ := tick_cases hs
    · rw [ht] at h; cases h
    · rw [ht] at h; cases h
    · rw [ht, Machine.step_eq_execute hh hn]
      simpa using hh

theorem tick_false {c : Core} (h : c.tick.2 = false) : c.tick.1.machine = c.machine ∧ c.tick.1.Stopped := by
  by_cases hs : c.Stopped
  · rw [tick_stopped hs]
    exact ⟨rfl, hs⟩
  · obtain ⟨-, ht⟩ | ⟨-, ⟨t, -, ht⟩ | ⟨-, ht⟩⟩ := tick_cases hs
    · rw [ht]
      exact ⟨rfl, .inl rfl⟩
    · rw [ht]
      exact ⟨rfl, .inl rfl⟩
    · rw [ht] at h; cases h

theorem tick_executes (c : Core) : c.tick.2 = true ↔ Machine.Executes 1 c.machine c.tick.1.machine := by
  constructor
  · intro h
    obtain ⟨hh, hs⟩ := tick_true h
    exact .next hh hs (.none _)
  · intro h
    by_contra hf
    have hsame := (tick_false (Bool.not_eq_true _ ▸ hf)).1
    have hsteps := h.steps
    rw [hsame] at hsteps
    omega

/-! ## Several ticks -/

/-- The core after `n` ticks, with their answers. -/
def ticks : Nat → Core → Core × List Bool
  | 0, c => (c, [])
  | n + 1, c => ((ticks n c.tick.1).1, c.tick.2 :: (ticks n c.tick.1).2)

theorem ticks_stopped {c : Core} (h : c.Stopped) : ∀ n, c.ticks n = (c, List.replicate n false)
  | 0 => rfl
  | n + 1 => by
    rw [ticks, tick_stopped h, ticks_stopped h n]
    rfl

theorem ticks_executes : ∀ (n : Nat) (c : Core),
    Machine.Executes ((c.ticks n).2.count true) c.machine (c.ticks n).1.machine
  | 0, c => .none _
  | n + 1, c => by
    have ih := ticks_executes n c.tick.1
    rw [ticks]
    cases hb : c.tick.2 with
    | true =>
      obtain ⟨hh, hs⟩ := tick_true hb
      rw [List.count_cons_self]
      exact .next hh hs ih
    | false =>
      rw [(tick_false hb).1] at ih
      rw [List.count_cons_of_ne (by decide)]
      exact ih

/-! ## Runs -/

/-- Whether a core stands where a run has ended: at the same machine, and with a fault that has the same cause as the
run's error. -/
def EndsLike (c : Core) (m : Machine) (o : Machine.Outcome) : Prop :=
  c.machine = m ∧ c.fault.map (·.toError.cause) = (o.error? m).map Error.cause

theorem ticks_of_runFor : ∀ {fuel : Nat} {c : Core} {m : Machine} {o : Machine.Outcome}, c.fault = none →
    c.machine.runFor c.limit fuel = (m, o) → o ≠ .unfinished →
    ∃ n, (c.ticks n).2 = List.replicate n true ∧ (c.ticks n).1.tick.2 = false ∧ (c.ticks n).1.tick.1.EndsLike m o
  | 0, _, _, _, _, h, ho => absurd (Prod.mk.inj h).2.symm ho
  | fuel + 1, c, m, o, hf, h, ho => by
    rw [Machine.runFor] at h
    by_cases hh : c.machine.halted = true
    · rw [if_pos hh, Prod.mk.injEq] at h
      obtain ⟨rfl, rfl⟩ := h
      have hs : c.Stopped := .inr hh
      refine ⟨0, rfl, ?_, ?_⟩
      · simp only [ticks, tick_stopped hs]
      · simp only [ticks, tick_stopped hs]
        exact ⟨rfl, by rw [hf]; rfl⟩
    · rw [if_neg hh] at h
      have hs : ¬ c.Stopped := by simp [Stopped, hf, hh]
      obtain ⟨hr, ht⟩ | ⟨hr, ⟨t, hn, ht⟩ | ⟨hn, ht⟩⟩ := tick_cases hs
      · rw [if_pos hr, Prod.mk.injEq] at h
        obtain ⟨rfl, rfl⟩ := h
        refine ⟨0, rfl, ?_, ?_⟩
        · simp only [ticks, ht]
        · simp only [ticks, ht]
          exact ⟨rfl, rfl⟩
      · rw [hr, hn] at h
        simp only [Bool.false_eq_true, if_false, Prod.mk.injEq] at h
        obtain ⟨rfl, rfl⟩ := h
        refine ⟨0, rfl, ?_, ?_⟩
        · simp only [ticks, ht]
        · simp only [ticks, ht]
          exact ⟨rfl, rfl⟩
      · rw [hr, hn] at h
        simp only [Bool.false_eq_true, if_false] at h
        have hrun : c.tick.1.machine.runFor c.tick.1.limit fuel = (m, o) := by
          rw [ht]
          simpa using h
        have hfault : c.tick.1.fault = none := by
          rw [ht]
          simpa using hf
        obtain ⟨n, hanswers, hlast, hends⟩ := ticks_of_runFor hfault hrun ho
        refine ⟨n + 1, ?_, hlast, hends⟩
        rw [ticks, hanswers, ht, List.replicate_succ]

theorem runFor_of_ticks : ∀ (n : Nat) {c : Core}, c.fault = none → (c.ticks n).1.tick.2 = false →
    ∃ fuel, (c.machine.runFor c.limit fuel).2 ≠ .unfinished
  | n, c, hf, h => by
    by_cases hh : c.machine.halted = true
    · exact ⟨1, by simp [Machine.runFor, hh]⟩
    · have hs : ¬ c.Stopped := by simp [Stopped, hf, hh]
      obtain ⟨hr, ht⟩ | ⟨hr, ⟨t, hn, ht⟩ | ⟨hn, ht⟩⟩ := tick_cases hs
      · exact ⟨1, by simp [Machine.runFor, hh, hr]⟩
      · exact ⟨1, by simp [Machine.runFor, hh, hr, hn]⟩
      · cases n with
        | zero =>
          simp only [ticks, ht] at h
          cases h
        | succ n =>
          have hfault : c.tick.1.fault = none := by
            rw [ht]
            simpa using hf
          obtain ⟨fuel, hfuel⟩ := runFor_of_ticks n hfault h
          refine ⟨fuel + 1, ?_⟩
          rw [ht] at hfuel
          simpa [Machine.runFor, hh, hr, hn] using hfuel

theorem map_fields (c : Core) (p : Asm.Program) :
    (c.map p).machine = c.machine.load p ∧ (c.map p).fault = none ∧ (c.map p).limit = c.limit := by
  have hask : ∀ (c : Core) (time : Nat),
      (c.ask time).machine = c.machine ∧ (c.ask time).fault = c.fault ∧ (c.ask time).limit = c.limit := by
    intro c time
    unfold ask
    split <;> exact ⟨rfl, rfl, rfl⟩
  unfold map
  simp only
  split
  · exact ⟨rfl, rfl, rfl⟩
  · exact hask _ _

/-- A program mapped to any core, and the same program loaded into the core's machine. After any ticks the machine has
executed as many instructions as ticks said so; a tick says so exactly if it executed one; the first that does not is
the last to change anything. The ticks come to such an end exactly if the run does, in the same state and with the
same cause. -/
theorem ticks_refine_run (c : Core) (maxSteps : Int) (p : Asm.Program) :
    let start := map { c with limit := Machine.limitOf maxSteps } p
    let loaded := c.machine.load p
    (∀ n, Machine.Executes ((start.ticks n).2.count true) loaded (start.ticks n).1.machine) ∧
    (∀ n, ((start.ticks n).1.tick.2 = true ↔
      Machine.Executes 1 (start.ticks n).1.machine (start.ticks n).1.tick.1.machine)) ∧
    (∀ n, (start.ticks n).1.tick.2 = false →
      (start.ticks n).1.tick.1.machine = (start.ticks n).1.machine ∧
        ∀ k, (start.ticks n).1.tick.1.ticks k = ((start.ticks n).1.tick.1, List.replicate k false)) ∧
    (∀ fuel m o, loaded.runFor (Machine.limitOf maxSteps) fuel = (m, o) → o ≠ .unfinished →
      ∃ n, (start.ticks n).2 = List.replicate n true ∧ (start.ticks n).1.tick.2 = false ∧
        (start.ticks n).1.tick.1.EndsLike m o) ∧
    ((∃ n, (start.ticks n).1.tick.2 = false) →
      ∃ fuel, (loaded.runFor (Machine.limitOf maxSteps) fuel).2 ≠ .unfinished) := by
  intro start loaded
  obtain ⟨hmachine, hfault, hlimit⟩ := map_fields { c with limit := Machine.limitOf maxSteps } p
  have hm : start.machine = loaded := hmachine
  have hl : start.limit = Machine.limitOf maxSteps := hlimit
  refine ⟨fun n => ?_, fun n => tick_executes _, fun n h => ?_, fun fuel m o h ho => ?_, ?_⟩
  · rw [← hm]
    exact ticks_executes n start
  · obtain ⟨hsame, hstopped⟩ := tick_false h
    exact ⟨hsame, ticks_stopped hstopped⟩
  · rw [← hm, ← hl] at h
    exact ticks_of_runFor hfault h ho
  · rintro ⟨n, h⟩
    rw [← hm, ← hl]
    exact runFor_of_ticks n hfault h

end Core

end HackStack
