import HackStack.Proofs.Machine.Ticks

/-!
# Programs mapped one after the other

A run handles ticks until none is left, and then the last tick asked for is at the current time. A program that is
mapped later asks for a tick at that time again and is not granted one. So of all programs mapped to a core only those
before the end of the first run that has a tick to handle are executed, and `mapped_program_executed` says so for any
history of the core.
-/

namespace HackStack.Core

/-! ## Histories -/

/-- What is done to a core once it is made. -/
inductive Action where
  | map (p : Asm.Program)
  | poke (address value : Int)
  | run

/-- Whether running a core ends, with no tick left, as another one. -/
def Settles (c c' : Core) : Prop := ∃ fuel, c.runFor fuel = c' ∧ c'.pending = false

/-- What an action makes of a core. A run has to end for this, and a poke needs an address that exists. -/
inductive Acts (c : Core) : Action → Core → Prop
  | map (p : Asm.Program) : Acts c (.map p) (c.map p)
  | poke {address value : Int} {m : Machine} :
      c.machine.poke? address value = some m → Acts c (.poke address value) { c with machine := m }
  | run {c' : Core} : c.Settles c' → Acts c .run c'

/-- Whether some actions, one after the other, make one core of another. -/
inductive History (c : Core) : List Action → Core → Prop
  | start : History c [] c
  | next {as : List Action} {a : Action} {c₁ c₂ : Core} : History c as c₁ → Acts c₁ a c₂ → History c (as ++ [a]) c₂

/-- Whether a program that is not empty is mapped in a history. -/
def Mapped (as : List Action) : Prop := ∃ p, .map p ∈ as ∧ 0 < p.words.size

/-- Whether a history has a run behind a program that is not empty. -/
def Ran (as : List Action) : Prop := ∃ before after, as = before ++ .run :: after ∧ Mapped before

theorem mapped_append {as : List Action} {a : Action} :
    Mapped (as ++ [a]) ↔ Mapped as ∨ ∃ p, a = .map p ∧ 0 < p.words.size := by
  unfold Mapped
  constructor
  · rintro ⟨p, hp, hsize⟩
    obtain hp | hp := List.mem_append.mp hp
    · exact .inl ⟨p, hp, hsize⟩
    · exact .inr ⟨p, (List.mem_singleton.mp hp).symm, hsize⟩
  · rintro (⟨p, hp, hsize⟩ | ⟨p, rfl, hsize⟩)
    · exact ⟨p, List.mem_append_left _ hp, hsize⟩
    · exact ⟨p, by simp, hsize⟩

theorem ran_append {as : List Action} {a : Action} : Ran (as ++ [a]) ↔ Ran as ∨ a = .run ∧ Mapped as := by
  unfold Ran
  constructor
  · rintro ⟨before, after, heq, hmapped⟩
    cases after using List.reverseRecOn with
    | nil =>
      obtain ⟨rfl, ha⟩ := List.append_inj' heq rfl
      exact .inr ⟨(List.cons.inj ha).1, hmapped⟩
    | append_singleton after b =>
      rw [← List.cons_append, ← List.append_assoc] at heq
      exact .inl ⟨before, after, (List.append_inj' heq rfl).1, hmapped⟩
  · rintro (⟨before, after, rfl, hmapped⟩ | ⟨rfl, hmapped⟩)
    · exact ⟨before, after ++ [a], by simp, hmapped⟩
    · exact ⟨as, [], rfl, hmapped⟩

/-! ## Ticks and the schedule -/

theorem tick_schedule (c : Core) :
    c.tick.1.limit = c.limit ∧ c.tick.1.time = c.time ∧ c.tick.1.asked = c.asked ∧ c.tick.1.pending = c.pending := by
  have hreport : ∀ c : Core, c.reportHalt.limit = c.limit ∧ c.reportHalt.time = c.time ∧
      c.reportHalt.asked = c.asked ∧ c.reportHalt.pending = c.pending := by
    intro c
    unfold reportHalt
    split <;> exact ⟨rfl, rfl, rfl, rfl⟩
  by_cases hs : c.Stopped
  · rw [tick_stopped hs]
    exact ⟨rfl, rfl, rfl, rfl⟩
  · obtain ⟨-, ht⟩ | ⟨-, ⟨t, -, ht⟩ | ⟨-, ht⟩⟩ := tick_cases hs
    · rw [ht]
      exact ⟨rfl, rfl, rfl, rfl⟩
    · rw [ht]
      exact ⟨rfl, rfl, rfl, rfl⟩
    · rw [ht]
      exact hreport _

/-- Whether a core has handled the last tick that it has asked for. -/
structure Quiet (c : Core) : Prop where
  pending : c.pending = false
  asked : c.asked = some c.time

/-- Handling a tick stops the core, and no tick is left; or it executes an instruction, which the limit allows, and the
next tick is pending. -/
theorem handle_cases {c : Core} {time : Nat} (h : c.asked = some time) :
    (c.handle.machine = c.machine ∧ c.handle.Stopped ∧ c.handle.Quiet) ∨
      (Machine.Executes 1 c.machine c.handle.machine ∧ c.machine.reached c.limit = false ∧
        c.handle.limit = c.limit ∧ c.handle.pending = true ∧ ∃ next, c.handle.asked = some next) := by
  have hstart : (({ c with pending := false, time := c.asked.getD c.time } : Core)) =
      { c with pending := false, time := time } := by rw [h]; rfl
  unfold handle
  rw [hstart]
  generalize hc : ({ c with pending := false, time := time } : Core) = s
  obtain ⟨hlimit, htime, hasked, hpending⟩ := tick_schedule s
  have hmachine : s.machine = c.machine := by rw [← hc]
  have hsame : s.limit = c.limit := by rw [← hc]
  cases hb : s.tick.2 with
  | false =>
    have hpair : s.tick = (s.tick.1, false) := Prod.ext rfl hb
    obtain ⟨hm, hstopped⟩ := tick_false hb
    rw [hpair]
    refine .inl ⟨hm.trans hmachine, hstopped, ?_, ?_⟩
    · rw [hpending, ← hc]
    · show s.tick.1.asked = some s.tick.1.time
      rw [hasked, htime, ← hc]
      exact h
  | true =>
    have hpair : s.tick = (s.tick.1, true) := Prod.ext rfl hb
    have hexecutes := (tick_executes s).mp hb
    have hreached : s.machine.reached s.limit = false := by
      by_cases hs : s.Stopped
      · rw [tick_stopped hs] at hb
        cases hb
      · obtain ⟨-, ht⟩ | ⟨hr, -⟩ := tick_cases hs
        · rw [ht] at hb
          cases hb
        · exact hr
    -- The next cycle is later than the tick that is being handled, so it is granted.
    have hgranted : s.tick.1.ask (s.tick.1.time + 1) =
        { s.tick.1 with asked := some (s.tick.1.time + 1), pending := true } := by
      have hall : s.tick.1.asked.all (· < s.tick.1.time + 1) = true := by
        rw [hasked, htime, ← hc, h]
        simp
      rw [ask, if_pos hall]
    rw [hpair]
    simp only
    rw [hgranted]
    refine .inr ⟨hmachine ▸ hexecutes, ?_, ?_, rfl, _, rfl⟩
    · rw [← hmachine, ← hsame]
      exact hreached
    · rw [← hsame]
      exact hlimit

/-! ## Runs of the engine -/

theorem runFor_idle {c : Core} (h : c.pending = false) : ∀ fuel, c.runFor fuel = c
  | 0 => rfl
  | fuel + 1 => by rw [runFor, h]; rfl

theorem Settles.idle {c c' : Core} (h : c.Settles c') (hc : c.pending = false) : c' = c := by
  obtain ⟨fuel, rfl, -⟩ := h
  exact runFor_idle hc fuel

theorem executes_trans {n k : Nat} {m m₁ m₂ : Machine} (h : Machine.Executes n m m₁) (h' : Machine.Executes k m₁ m₂) :
    Machine.Executes (n + k) m m₂ := by
  induction h with
  | none => rwa [Nat.zero_add]
  | @next n m m' m'' hh hs _ ih =>
    rw [Nat.add_right_comm]
    exact .next hh hs (ih h')

theorem Settles.stopped {c c' : Core} (h : c.Settles c') (hc : c.pending = true) {time : Nat}
    (ha : c.asked = some time) :
    c'.Stopped ∧ c'.Quiet ∧ ∃ n, Machine.Executes n c.machine c'.machine := by
  obtain ⟨fuel, rfl, hend⟩ := h
  induction fuel generalizing c time with
  | zero =>
    rw [runFor, hc] at hend
    cases hend
  | succ fuel ih =>
    rw [runFor, if_pos hc] at hend ⊢
    obtain ⟨hm, hstopped, hquiet⟩ | ⟨hexecutes, -, -, hpending, next, hasked⟩ := handle_cases ha
    · rw [runFor_idle hquiet.pending]
      exact ⟨hstopped, hquiet, 0, hm ▸ .none _⟩
    · obtain ⟨hstopped, hquiet, n, hrest⟩ := ih hpending hasked hend
      exact ⟨hstopped, hquiet, 1 + n, executes_trans hexecutes hrest⟩

theorem pending_runFor {n : Nat} : ∀ (fuel : Nat) {c : Core} {time : Nat}, c.limit = some n → c.asked = some time →
    n - c.machine.steps + 1 ≤ fuel → (c.runFor fuel).pending = false
  | 0, _, _, _, _, hfuel => absurd hfuel (Nat.not_succ_le_zero _)
  | fuel + 1, c, time, hl, ha, hfuel => by
    by_cases hc : c.pending = true
    · rw [runFor, if_pos hc]
      obtain ⟨-, -, hquiet⟩ | ⟨hexecutes, hreached, hlimit, -, next, hasked⟩ := handle_cases ha
      · rw [runFor_idle hquiet.pending]
        exact hquiet.pending
      · have hsteps := hexecutes.steps
        have hlt : ¬ n ≤ c.machine.steps := by
          rw [hl] at hreached
          simpa [Machine.reached] using hreached
        exact pending_runFor fuel (hlimit.trans hl) hasked (by omega)
    · rw [Bool.not_eq_true] at hc
      rw [runFor_idle hc]
      exact hc

theorem pending_run {c : Core} {n : Nat} (hl : c.limit = some n)
    (ha : c.pending = true → ∃ time, c.asked = some time) : c.run.pending = false := by
  unfold run
  rw [hl]
  cases hc : c.pending with
  | true =>
    obtain ⟨time, ha⟩ := ha hc
    exact pending_runFor _ hl ha (Nat.le_succ _)
  | false =>
    rw [runFor_idle hc]
    exact hc

theorem limit_ask (c : Core) (time : Nat) : (c.ask time).limit = c.limit := by
  unfold ask
  split <;> rfl

theorem limit_runFor : ∀ (fuel : Nat) (c : Core), (c.runFor fuel).limit = c.limit
  | 0, _ => rfl
  | fuel + 1, c => by
    have hhandle : c.handle.limit = c.limit := by
      unfold handle
      have htick := (tick_schedule { c with pending := false, time := c.asked.getD c.time }).1
      split
      · rename_i heq
        rw [limit_ask, ← htick, heq]
      · rename_i heq
        rw [← htick, heq]
    rw [runFor]
    split
    · rw [limit_runFor fuel, hhandle]
    · rfl

/-! ## What a history leaves behind -/

theorem ran_of_ran {before : List Action} (h : Ran before) (after : List Action) : Ran (before ++ after) := by
  obtain ⟨xs, ys, rfl, hmapped⟩ := h
  exact ⟨xs, ys ++ after, by simp, hmapped⟩

theorem Ran.mapped {as : List Action} (h : Ran as) : Mapped as := by
  obtain ⟨before, after, rfl, p, hp, hsize⟩ := h
  exact ⟨p, List.mem_append_left _ hp, hsize⟩

/-- The schedule of a core after a history: a tick is asked for as soon as a program is mapped, and it is pending until
a run has handled it. -/
structure Planned (as : List Action) (c : Core) : Prop where
  none : ¬ Mapped as → c.asked = none
  some : Mapped as → c.asked = some c.time
  pending : c.pending = true ↔ Mapped as ∧ ¬ Ran as

theorem halted_load (m : Machine) (p : Asm.Program) : (m.load p).halted = true ↔ p.words.size = 0 := by
  have hload : (m.load p).halted = decide (p.words.size ≤ 0) := rfl
  rw [hload, decide_eq_true_eq]
  omega

theorem map_eq (c : Core) (p : Asm.Program) : ∃ log,
    c.map p = if p.words.size = 0 then { c with machine := c.machine.load p, fault := none, log := log }
      else ({ c with machine := c.machine.load p, fault := none, log := log } : Core).ask c.time := by
  have hhalted := halted_load c.machine p
  by_cases hsize : p.words.size = 0
  · simp only [if_pos hsize]
    exact ⟨_, if_pos (hhalted.mpr hsize)⟩
  · simp only [if_neg hsize]
    exact ⟨_, if_neg fun hh => hsize (hhalted.mp hh)⟩

theorem map_schedule (c : Core) (p : Asm.Program) : (c.map p).time = c.time ∧
    (p.words.size = 0 ∨ c.asked = some c.time → (c.map p).asked = c.asked ∧ (c.map p).pending = c.pending) ∧
    (0 < p.words.size → c.asked = none → (c.map p).asked = some c.time ∧ (c.map p).pending = true) := by
  obtain ⟨log, hmap⟩ := map_eq c p
  rw [hmap]
  by_cases hsize : p.words.size = 0
  · rw [if_pos hsize]
    exact ⟨rfl, fun _ => ⟨rfl, rfl⟩, fun hpos => by omega⟩
  · rw [if_neg hsize]
    unfold ask
    split
    · rename_i hall
      refine ⟨rfl, fun hor => ?_, fun _ _ => ⟨rfl, rfl⟩⟩
      obtain hzero | hasked := hor
      · exact absurd hzero hsize
      · simp [hasked] at hall
    · rename_i hall
      refine ⟨rfl, fun _ => ⟨rfl, rfl⟩, fun _ hnone => ?_⟩
      simp [hnone] at hall

theorem planned_acts {as : List Action} {a : Action} {c c' : Core} (h : Planned as c) (ha : Acts c a c') :
    Planned (as ++ [a]) c' := by
  cases ha with
  | map p =>
    obtain ⟨htime, hkept, hgranted⟩ := map_schedule c p
    have hran : Ran (as ++ [.map p]) ↔ Ran as := by simp [ran_append]
    have hmapped : Mapped (as ++ [.map p]) ↔ Mapped as ∨ 0 < p.words.size := by simp [mapped_append]
    -- After a first program the tick at the current time has been asked for, and it is not granted a second time.
    by_cases hm : Mapped as
    · obtain ⟨hasked, hpending⟩ := hkept (.inr (h.some hm))
      refine ⟨fun hn => absurd (hmapped.mpr (.inl hm)) hn, fun _ => ?_, ?_⟩
      · rw [hasked, htime, h.some hm]
      · rw [hpending, h.pending, hran, hmapped]
        simp [hm]
    · by_cases hsize : p.words.size = 0
      · obtain ⟨hasked, hpending⟩ := hkept (.inl hsize)
        have hnone : ¬ Mapped (as ++ [.map p]) := by simp [hmapped, hm, hsize]
        refine ⟨fun _ => hasked.trans (h.none hm), fun hn => absurd hn hnone, ?_⟩
        rw [hpending, h.pending]
        simp [hm, hnone]
      · have hpos : 0 < p.words.size := Nat.pos_of_ne_zero hsize
        obtain ⟨hasked, hpending⟩ := hgranted hpos (h.none hm)
        refine ⟨fun hn => absurd (hmapped.mpr (.inr hpos)) hn, fun _ => ?_, ?_⟩
        · rw [hasked, htime]
        · have hnot : ¬ Ran as := fun hr => hm hr.mapped
          simp [hpending, hmapped, hran, hpos, hnot]
  | poke hpoke =>
    have hran : ∀ address value, Ran (as ++ [.poke address value]) ↔ Ran as := by simp [ran_append]
    have hmapped : ∀ address value, Mapped (as ++ [.poke address value]) ↔ Mapped as := by simp [mapped_append]
    refine ⟨?_, ?_, ?_⟩
    · rw [hmapped]
      exact h.none
    · rw [hmapped]
      exact h.some
    · rw [hmapped, hran]
      exact h.pending
  | run hrun =>
    have hran : Ran (as ++ [.run]) ↔ Mapped as := by
      rw [ran_append]
      exact ⟨fun hor => hor.elim Ran.mapped And.right, fun hm => .inr ⟨rfl, hm⟩⟩
    have hmapped : Mapped (as ++ [.run]) ↔ Mapped as := by simp [mapped_append]
    cases hc : c.pending with
    | false =>
      obtain rfl := hrun.idle hc
      refine ⟨?_, ?_, ?_⟩
      · rw [hmapped]
        exact h.none
      · rw [hmapped]
        exact h.some
      · rw [hc, hmapped, hran]
        simp
    | true =>
      have hm := (h.pending.mp hc).1
      obtain ⟨-, hquiet, -⟩ := hrun.stopped hc (h.some hm)
      refine ⟨fun hn => absurd (hmapped.mpr hm) hn, fun _ => hquiet.asked, ?_⟩
      rw [hquiet.pending, hmapped, hran]
      simp

theorem planned_history {ramSize : Int} {limit : Option Nat} {c₀ c : Core} (hnew : new? ramSize limit = some c₀)
    {as : List Action} (h : History c₀ as c) : Planned as c ∧ c.limit = limit := by
  have hstart : Planned [] c₀ ∧ c₀.limit = limit := by
    unfold new? at hnew
    split at hnew
    · cases hnew
    · cases hnew
      refine ⟨⟨fun _ => rfl, ?_, ?_⟩, rfl⟩
      · rintro ⟨p, hp, -⟩
        cases hp
      · simp [Mapped]
  induction h with
  | start => exact hstart
  | next _ ha ih =>
    refine ⟨planned_acts ih.1 ha, ?_⟩
    rw [← ih.2]
    cases ha with
    | map p => exact (map_fields _ p).2.2
    | poke _ => rfl
    | run hrun =>
      obtain ⟨fuel, rfl, -⟩ := hrun
      exact limit_runFor fuel _

/-! ## The last program -/

/-- Whether a core has a program loaded and has executed nothing of it. -/
structure Untouched (c : Core) (p : Asm.Program) : Prop where
  fault : c.fault = none
  rom : c.machine.rom = p.words
  pc : c.machine.pc = 0
  steps : c.machine.steps = 0

theorem Untouched.stopped_iff {c : Core} {p : Asm.Program} (h : c.Untouched p) : c.Stopped ↔ p.words.size = 0 := by
  unfold Stopped Machine.halted
  rw [h.fault, h.rom, h.pc]
  simp

theorem untouched_map (c : Core) (p : Asm.Program) : (c.map p).Untouched p := by
  obtain ⟨hmachine, hfault, -⟩ := map_fields c p
  exact ⟨hfault, by rw [hmachine]; rfl, by rw [hmachine]; rfl, by rw [hmachine]; rfl⟩

theorem poke_fields {m m' : Machine} {address value : Int} (h : m.poke? address value = some m') :
    m' = { m with ram := m'.ram } := by
  unfold Machine.poke? at h
  split at h
  · cases h
    rfl
  · cases h

theorem ran_last {before : List Action} {p : Asm.Program} {after : List Action}
    (h : Ran (before ++ .map p :: after)) : Ran before ∨ .run ∈ after := by
  induction after using List.reverseRecOn with
  | nil =>
    obtain h | ⟨h, -⟩ := ran_append.mp h
    · exact .inl h
    · cases h
  | append_singleton after a ih =>
    rw [← List.cons_append, ← List.append_assoc] at h
    obtain h | ⟨rfl, -⟩ := ran_append.mp h
    · exact (ih h).imp_right (List.mem_append_left _)
    · exact .inr (by simp)

theorem History.last {c c₂ : Core} {as : List Action} {a : Action} (h : History c (as ++ [a]) c₂) :
    ∃ c₁, History c as c₁ ∧ Acts c₁ a c₂ := by
  generalize hall : as ++ [a] = all at h
  cases h with
  | start => simp at hall
  | next h ha =>
    obtain ⟨rfl, hlast⟩ := List.append_inj' hall rfl
    cases hlast
    exact ⟨_, h, ha⟩

/-- The last program of a history is not touched before a run, and never if a run came before it; otherwise the first
run stops the core. -/
theorem last_program {ramSize : Int} {limit : Option Nat} {c₀ c : Core} (hnew : new? ramSize limit = some c₀)
    {before after : List Action} {p : Asm.Program} (hlast : ∀ q, .map q ∉ after)
    (h : History c₀ (before ++ .map p :: after) c) :
    (Ran before ∨ .run ∉ after → c.Untouched p) ∧ (¬ Ran before → .run ∈ after → c.Stopped) := by
  -- From the right: the last action finds the core as the actions before it have left it.
  induction after using List.reverseRecOn generalizing c with
  | nil =>
    obtain ⟨c₁, -, ha⟩ := h.last
    cases ha
    exact ⟨fun _ => untouched_map c₁ p, nofun⟩
  | append_singleton after a ih =>
    rw [← List.cons_append, ← List.append_assoc] at h
    obtain ⟨c₁, h, ha⟩ := h.last
    obtain ⟨huntouched, hstopped⟩ := ih (fun q hq => hlast q (List.mem_append_left _ hq)) h
    have hplanned := (planned_history hnew h).1
    cases ha with
    | map q => exact absurd (by simp) (hlast q)
    | poke hpoke =>
      have hfields := poke_fields hpoke
      simp only [List.mem_append, List.mem_singleton, reduceCtorEq, or_false]
      refine ⟨fun hor => ?_, fun hran hrun => ?_⟩
      · obtain ⟨hfault, hrom, hpc, hsteps⟩ := huntouched hor
        rw [hfields]
        exact ⟨hfault, hrom, hpc, hsteps⟩
      · rw [hfields]
        exact hstopped hran hrun
    | run hrun =>
      cases hc : c₁.pending with
      | true =>
        obtain ⟨hmapped, hnot⟩ := hplanned.pending.mp hc
        obtain ⟨hend, -, -⟩ := hrun.stopped hc (hplanned.some hmapped)
        refine ⟨?_, fun _ _ => hend⟩
        rintro (hran | hnone)
        · exact absurd (ran_of_ran hran _) hnot
        · exact absurd (by simp) hnone
      | false =>
        obtain rfl := hrun.idle hc
        refine ⟨?_, fun hran _ => ?_⟩
        · rintro (hran | hnone)
          · exact huntouched (.inl hran)
          · exact absurd (by simp) hnone
        · by_cases hmem : .run ∈ after
          · exact hstopped hran hmem
          · -- With no run so far, the tick of a program that is not empty would be pending.
            rw [(huntouched (.inr hmem)).stopped_iff]
            by_contra hsize
            have hmapped : Mapped (before ++ .map p :: after) := ⟨p, by simp, Nat.pos_of_ne_zero hsize⟩
            have hnot : ¬ Ran (before ++ .map p :: after) := fun hr => (ran_last hr).elim hran hmem
            rw [hplanned.pending.mpr ⟨hmapped, hnot⟩] at hc
            cases hc

/-- A run on a core with any history, the last program of which is `p`. The core has stopped after it, halted or with a
fault, exactly if the program is empty or was mapped before any run that had a tick to handle. In either case the
machine has only executed instructions; if there was such a run, it has executed none. With a limit the run ends. -/
theorem mapped_program_executed {ramSize : Int} {limit : Option Nat} {c₀ c c' : Core}
    (hnew : new? ramSize limit = some c₀) {before after : List Action} {p : Asm.Program}
    (h : History c₀ (before ++ .map p :: after) c) (hlast : ∀ q, .map q ∉ after) (hrun : c.Settles c') :
    (c'.Stopped ↔ p.words.size = 0 ∨ ¬ Ran before) ∧
    (∃ n, Machine.Executes n c.machine c'.machine) ∧
    (Ran before → c' = c ∧ c'.machine.steps = 0) ∧
    ∀ n, limit = some n → c.Settles c.run := by
  obtain ⟨hplanned, hlimit⟩ := planned_history hnew h
  have hnext : History c₀ (before ++ .map p :: (after ++ [.run])) c' := by
    have hnext := h.next (.run hrun)
    rwa [List.append_assoc, List.cons_append] at hnext
  have hlast' : ∀ q, .map q ∉ after ++ [.run] := by simpa using hlast
  obtain ⟨huntouched, hstopped⟩ := last_program hnew hlast' hnext
  refine ⟨?_, ?_, ?_, ?_⟩
  · by_cases hran : Ran before
    · rw [(huntouched (.inl hran)).stopped_iff]
      simp [hran]
    · simp [hran, hstopped hran (by simp)]
  · cases hc : c.pending with
    | true =>
      exact (hrun.stopped hc (hplanned.some (hplanned.pending.mp hc).1)).2.2
    | false =>
      obtain rfl := hrun.idle hc
      exact ⟨0, .none _⟩
  · intro hran
    refine ⟨hrun.idle ?_, (huntouched (.inl hran)).steps⟩
    rw [Bool.eq_false_iff]
    intro hc
    exact (hplanned.pending.mp hc).2 (ran_of_ran hran _)
  · rintro n rfl
    exact ⟨_, rfl, pending_run hlimit fun hc => ⟨_, hplanned.some (hplanned.pending.mp hc).1⟩⟩

def sampleProgram : Text := ascii "@7\nD=A\n"

theorem sampleProgram_runs : ∃ p, Asm.assemble sampleProgram = .ok p ∧
    (0 < p.words.size ∧ ∃ c ∈ new? 512 (some 1000), (c.map p).run.pending = false ∧
      ((c.map p).run.map p).run.pending = false) :=
  Asm.ok_of_any (by decide +kernel)

theorem mapped_program_executed_sample :
    ∃ p c₀ c, Asm.assemble sampleProgram = .ok p ∧ 0 < p.words.size ∧ new? 512 (some 1000) = some c₀ ∧
      History c₀ [.map p, .run] c ∧ c.Stopped := by
  obtain ⟨p, hp, hsize, c₀, hnew, hend, -⟩ := sampleProgram_runs
  have hmap : History c₀ ([] ++ .map p :: []) (c₀.map p) := .next .start (.map p)
  have hrun : (c₀.map p).Settles (c₀.map p).run := ⟨_, rfl, hend⟩
  have hfirst : ¬ Ran [] := by simp [Ran]
  refine ⟨p, c₀, _, hp, hsize, hnew, .next hmap (.run hrun), ?_⟩
  exact (mapped_program_executed hnew hmap (by simp) hrun).1.mpr (.inr hfirst)

/-- The second of two programs is not executed: the first has used up the tick at the current time. -/
theorem second_program_not_executed :
    ∃ p c₀ c, Asm.assemble sampleProgram = .ok p ∧ new? 512 (some 1000) = some c₀ ∧
      History c₀ [.map p, .run, .map p, .run] c ∧ ¬ c.Stopped := by
  obtain ⟨p, hp, hsize, c₀, hnew, hend, hend'⟩ := sampleProgram_runs
  have hrun : (c₀.map p).Settles (c₀.map p).run := ⟨_, rfl, hend⟩
  have hrun' : ((c₀.map p).run.map p).Settles ((c₀.map p).run.map p).run := ⟨_, rfl, hend'⟩
  have hall : History c₀ ([.map p, .run] ++ .map p :: [.run]) ((c₀.map p).run.map p).run :=
    .next (.next (.next (.next .start (.map p)) (.run hrun)) (.map p)) (.run hrun')
  refine ⟨p, c₀, _, hp, hnew, hall, ?_⟩
  have hran : Ran [.map p, .run] := ⟨[.map p], [], rfl, p, by simp, hsize⟩
  have huntouched := (last_program hnew (by simp) hall).1 (.inl hran)
  rw [huntouched.stopped_iff]
  omega

end HackStack.Core
