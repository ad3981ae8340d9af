import HackStack.CommandLine
import HackStack.Proofs.Machine.Endless
import HackStack.Proofs.Suite.Verdicts

/-!
# Runs under checked settings

Settings that pass their check give a computer that can be built and that runs any program without looking beyond its
memory. Showing it afterwards looks up the sixteen registers, which the check does not ask for: it is content with the
five pointers. So a run under such settings that comes to its end crashes exactly if the memory is smaller than that.
-/

namespace HackStack

/-! ## Addresses that are looked up -/

namespace Machine

def firstAddresses (count : Nat) : List Int := (List.range count).map fun i : Nat => (i : Int)

theorem has_firstAddresses {m : Machine} {count : Nat} :
    (∀ address ∈ firstAddresses count, m.Has address) ↔ count ≤ m.ram.size := by
  unfold firstAddresses Has
  simp only [List.forall_mem_map, List.mem_range]
  constructor
  · intro h
    cases count with
    | zero => exact Nat.zero_le _
    | succ n =>
      have hlast := (h n (Nat.lt_succ_self n)).2
      omega
  · intro h i hi
    omega

/-- The addresses from a base up to the stack pointer. There are none if the pointer is past the memory. -/
def stackAddresses (m : Machine) (base : Int) : List Int :=
  if m.ram.size < m.stackPointer then []
  else (List.range (m.stackPointer - base).toNat).map fun i : Nat => base + i

/-- The addresses that are looked up to show a machine: the registers, and the stack above a base. -/
def shownAddresses (m : Machine) (base : Int) : List Int := firstAddresses 16 ++ m.stackAddresses base

theorem has_stackAddresses {m : Machine} {base : Int} :
    (∀ address ∈ m.stackAddresses base, m.Has address) ↔ (m.stack? base).isSome = true := by
  rw [isSome_stack?]
  unfold stackAddresses Has
  by_cases hpast : m.ram.size < m.stackPointer
  · simp [hpast]
  · rw [if_neg hpast]
    simp only [List.forall_mem_map, List.mem_range]
    constructor
    · intro h
      by_cases hbelow : (m.stackPointer : Int) ≤ base
      · omega
      · have hfirst := h 0 (by omega)
        omega
    · intro h i hi
      omega

theorem isSome_words? {m : Machine} {first count : Nat} :
    (m.words? first count).isSome = true ↔ first + count ≤ m.ram.size := by
  unfold words?
  split <;> simp_all

/-- All of a machine is shown exactly if all addresses that are looked up for it are in the memory. -/
theorem stateText_complete {m : Machine} {base : Int} :
    (m.stateText base).2 = true ↔ ∀ address ∈ m.shownAddresses base, m.Has address := by
  have hpointers : m.registerTable?.isSome = true ↔ 5 ≤ m.ram.size := by
    unfold registerTable?
    rw [Option.isSome_map, isSome_words?, Nat.zero_add]
  have hscratch : m.scratchTable?.isSome = true ↔ 16 ≤ m.ram.size := by
    unfold scratchTable?
    rw [Option.isSome_map, isSome_words?]
  have hstack : (m.stackTable? base).isSome = (m.stack? base).isSome := Option.isSome_map
  unfold shownAddresses
  rw [List.forall_mem_append, has_firstAddresses, has_stackAddresses, ← hstack, ← hscratch]
  unfold stateText
  cases hr : m.registerTable? with
  | none =>
    have hsmall : ¬ m.scratchTable?.isSome = true := by
      rw [hr, Option.isSome_none] at hpointers
      rw [hscratch]
      have hlt : ¬ 5 ≤ m.ram.size := fun h => Bool.false_ne_true (hpointers.mpr h)
      omega
    simp [hsmall]
  | some registers =>
    cases m.scratchTable? with
    | none => simp
    | some scratch => cases m.stackTable? base <;> simp

/-- Above a base that is in the memory, a machine with sixteen words or more is shown whatever its stack pointer. -/
theorem shown_iff {m : Machine} {base : Int} (hbase : 0 ≤ base) :
    (∀ address ∈ m.shownAddresses base, m.Has address) ↔ 16 ≤ m.ram.size := by
  have hstack : (m.stack? base).isSome = true := isSome_stack?.mpr (.inl hbase)
  unfold shownAddresses
  rw [List.forall_mem_append, has_firstAddresses, has_stackAddresses]
  exact and_iff_left hstack

end Machine

/-! ## Ticks -/

namespace Core

/-- The addresses that a tick looks up. If it executes an instruction, these are the addresses of the instruction and,
for the report that the program has halted, those of the pointers. -/
def tickAddresses (c : Core) : List Int :=
  if c.tick.2 then
    c.machine.stepAddresses ++ if c.tick.1.machine.halted then Machine.firstAddresses minRamSize else []
  else []

theorem has_tickAddresses {c : Core} (hsize : minRamSize ≤ c.machine.ram.size) :
    ∀ address ∈ c.tickAddresses, c.machine.Has address := by
  unfold tickAddresses
  by_cases ht : c.tick.2 = true
  · obtain ⟨hh, hstep⟩ := tick_true ht
    have htrap : c.machine.trap? = none := Machine.trap?_of_step hh (by rw [hstep])
    have hpointers := Machine.has_firstAddresses.mpr hsize
    rw [if_pos ht, List.forall_mem_append]
    refine ⟨Machine.serves_iff.mp (Machine.trap?_eq_none.mp htrap), ?_⟩
    split
    · exact hpointers
    · simp
  · rw [if_neg ht]
    simp

theorem size_tick (c : Core) : c.tick.1.machine.ram.size = c.machine.ram.size := by
  by_cases ht : c.tick.2 = true
  · obtain ⟨hh, hstep⟩ := tick_true ht
    have htrap : c.machine.trap? = none := Machine.trap?_of_step hh (by rw [hstep])
    rw [Machine.step_eq_execute hh htrap] at hstep
    rw [← (Prod.mk.inj hstep).1, Machine.execute_ram_size]
  · rw [(tick_false (Bool.not_eq_true _ ▸ ht)).1]

theorem size_ticks : ∀ (n : Nat) (c : Core), (c.ticks n).1.machine.ram.size = c.machine.ram.size
  | 0, _ => rfl
  | n + 1, c => by rw [ticks, size_ticks n, size_tick]

theorem machine_ask (c : Core) (time : Nat) : (c.ask time).machine = c.machine := by
  unfold ask
  split <;> rfl

theorem size_handle (c : Core) : c.handle.machine.ram.size = c.machine.ram.size := by
  have htick := size_tick { c with pending := false, time := c.asked.getD c.time }
  unfold handle
  split
  · rename_i heq
    rw [heq] at htick
    rw [machine_ask, htick]
  · rename_i heq
    rw [heq] at htick
    exact htick

theorem size_runFor : ∀ (fuel : Nat) (c : Core), (c.runFor fuel).machine.ram.size = c.machine.ram.size
  | 0, _ => rfl
  | fuel + 1, c => by
    rw [runFor]
    split
    · rw [size_runFor fuel, size_handle]
    · rfl

end Core

/-! ## Runs -/

namespace Settings

theorem validate_ok {s : Settings} (h : s.validate = .ok ()) :
    4 < s.ramSize ∧ 5 ≤ s.stackBase ∧ s.stackBase < s.ramSize := by
  unfold validate at h
  split at h
  · cases h
  · rename_i hram
    split at h
    · cases h
    · rename_i hbase
      omega

/-- Whether a core has the memory and the step limit of some settings, and its stack pointer at their base. -/
def Builds (s : Settings) (c : Core) : Prop :=
  ∃ c₀ m, Core.new? s.ramSize (Machine.limitOf s.maxSteps) = some c₀ ∧ c₀.machine.poke? 0 s.stackBase = some m ∧
    c = { c₀ with machine := m }

theorem builds_of_validate {s : Settings} (h : s.validate = .ok ()) :
    ∃ c, s.Builds c ∧ (c.machine.ram.size : Int) = s.ramSize := by
  obtain ⟨hram, -, -⟩ := validate_ok h
  have hnew : Core.new? s.ramSize (Machine.limitOf s.maxSteps) =
      some { machine := Machine.new s.ramSize, limit := Machine.limitOf s.maxSteps } := by
    unfold Core.new? Core.minRamSize
    rw [if_neg (by omega)]
  have hsize : ((Machine.new s.ramSize).ram.size : Int) = s.ramSize := by
    unfold Machine.new
    rw [Array.size_replicate, if_neg (by omega)]
    omega
  have hpoke : ∃ m, (Machine.new s.ramSize).poke? 0 s.stackBase = some m ∧
      m.ram.size = (Machine.new s.ramSize).ram.size := by
    unfold Machine.poke?
    rw [if_pos (by omega)]
    exact ⟨_, rfl, Array.size_setIfInBounds⟩
  obtain ⟨m, hm, hm'⟩ := hpoke
  refine ⟨_, ⟨_, m, hnew, hm, rfl⟩, ?_⟩
  rw [← hsize, ← hm']

theorem Builds.schedule {s : Settings} {c : Core} (h : s.Builds c) (p : Asm.Program) :
    (c.map p).limit = Machine.limitOf s.maxSteps ∧ ((c.map p).pending = true → ∃ time, (c.map p).asked = some time) := by
  obtain ⟨c₀, m, hnew, hpoke, rfl⟩ := h
  have hhistory := ((Core.History.start).next (.poke hpoke)).next (.map p)
  obtain ⟨hplanned, hlimit⟩ := Core.planned_history hnew hhistory
  exact ⟨hlimit, fun hpending => ⟨_, hplanned.some (hplanned.pending.mp hpending).1⟩⟩

end Settings

namespace CommandLine

/-- Whether an input is translated and assembled to a program. -/
def Assembles (s : Settings) (tree : FileTree) (input : Text) (p : Asm.Program) : Prop :=
  ∃ t, (Translator.new false s.staticSymbols ({} : MemorySink)).path (fun _ => tree) input = (t, none) ∧
    Asm.assemble t.sink.text = .ok p

theorem runAssembly_eq {s : Settings} {c : Core} (hb : s.Builds c) {tree : FileTree} {t : Translator MemorySink}
    {p : Asm.Program} (hp : Asm.assemble t.sink.text = .ok p) :
    runAssembly s tree t = endOfRun s.stackBase tree t.log (c.map p).run := by
  obtain ⟨c₀, m, hnew, hpoke, rfl⟩ := hb
  unfold runAssembly
  simp only [hp, hnew, hpoke, Option.getD_some]

/-- A run comes to a core that has run an assembled program, or has failed before it. -/
theorem run_cases {s : Settings} {c : Core} (hb : s.Builds c) (tree : FileTree) (input : Text) :
    (∃ p log, Assembles s tree input p ∧ run s tree input = endOfRun s.stackBase tree log (c.map p).run) ∨
      (∀ p, ¬ Assembles s tree input p) ∧ (run s tree input).ends = true ∧ (run s tree input).ending ≠ .crashed := by
  unfold run Assembles
  cases (Translator.new false s.staticSymbols ({} : MemorySink)).path (fun _ => tree) input with
  | mk t e =>
    cases e with
    | some e => exact .inr ⟨by simp, rfl, by simp⟩
    | none =>
      cases hp : Asm.assemble t.sink.text with
      | error e =>
        refine .inr ⟨by simp [hp], ?_⟩
        simp [runAssembly, hp]
      | ok p => exact .inl ⟨p, t.log, ⟨t, rfl, hp⟩, runAssembly_eq hb hp⟩

theorem Assembles.unique {s : Settings} {tree : FileTree} {input : Text} {p p' : Asm.Program}
    (h : Assembles s tree input p) (h' : Assembles s tree input p') : p = p' := by
  obtain ⟨t, ht, hp⟩ := h
  obtain ⟨t', ht', hp'⟩ := h'
  obtain ⟨rfl, -⟩ := Prod.mk.inj (ht.symm.trans ht')
  exact Except.ok.inj (hp.symm.trans hp')

theorem endOfRun_crashed {base : Int} {tree : FileTree} {log : Array LogRecord} {core : Core} :
    (endOfRun base tree log core).ends = true ∧ (endOfRun base tree log core).ending = .crashed ↔
      core.pending = false ∧ (core.machine.stateText base).2 = false := by
  unfold endOfRun
  cases core.pending with
  | true => simp
  | false =>
    cases hshown : (core.machine.stateText base).2 with
    | false => simp [hshown]
    | true => cases core.fault <;> simp [hshown]

theorem endOfRun_ends {base : Int} {tree : FileTree} {log : Array LogRecord} {core : Core} :
    (endOfRun base tree log core).ends = true ↔ core.pending = false := by
  unfold endOfRun
  cases core.pending <;> simp

/-- Settings that pass their check build a core, and after any ticks of any program its memory has the size that was
asked for, the next tick looks up nothing else, and showing the core does not either if and only if the memory has
sixteen words. A run under them ends exactly if the core settles with the program that it comes to, as it does with a
limit, and then it crashes exactly if the core is shown with a smaller memory. -/
theorem checked_settings_run {s : Settings} (h : s.validate = .ok ()) :
    ∃ c, s.Builds c ∧
      (∀ (p : Asm.Program) (n : Nat),
        let c' := ((c.map p).ticks n).1
        (c'.machine.ram.size : Int) = s.ramSize ∧
        (∀ address ∈ c'.tickAddresses, c'.machine.Has address) ∧
        ((∀ address ∈ c'.machine.shownAddresses s.stackBase, c'.machine.Has address) ↔ 16 ≤ s.ramSize) ∧
        ((c'.machine.stateText s.stackBase).2 = true ↔ 16 ≤ s.ramSize)) ∧
      ∀ (tree : FileTree) (input : Text),
        ((run s tree input).ends = true ↔ ∀ p, Assembles s tree input p → ∃ c', (c.map p).Settles c') ∧
        (0 < s.maxSteps → (run s tree input).ends = true) ∧
        ((run s tree input).ends = true ∧ (run s tree input).ending = .crashed ↔ s.ramSize < 16 ∧
          ∃ p c', Assembles s tree input p ∧ (c.map p).Settles c') := by
  obtain ⟨c, hbuilds, hsize⟩ := Settings.builds_of_validate h
  obtain ⟨hram, hbase, -⟩ := Settings.validate_ok h
  have hshown : ∀ m : Machine, m.ram.size = c.machine.ram.size →
      ((∀ address ∈ m.shownAddresses s.stackBase, m.Has address) ↔ 16 ≤ s.ramSize) := by
    intro m hm
    rw [Machine.shown_iff (by omega), hm]
    omega
  refine ⟨c, hbuilds, fun p n => ?_, fun tree input => ?_⟩
  · have hticks : ((c.map p).ticks n).1.machine.ram.size = c.machine.ram.size := by
      rw [Core.size_ticks, (Core.map_fields c p).1]
      rfl
    refine ⟨by rw [hticks, hsize], Core.has_tickAddresses ?_, hshown _ hticks, ?_⟩
    · rw [hticks]
      unfold Core.minRamSize
      omega
    · rw [Machine.stateText_complete]
      exact hshown _ hticks
  · obtain ⟨p, log, hp, hrun⟩ | ⟨hnone, hends, hcrash⟩ := run_cases hbuilds tree input
    · have hram' : (c.map p).run.machine.ram.size = c.machine.ram.size := by
        rw [Core.run, Core.size_runFor, (Core.map_fields c p).1]
        rfl
      obtain ⟨hlimit, hasked⟩ := Settings.Builds.schedule hbuilds p
      have hsettles := Core.run_settles hasked
      rw [hrun, endOfRun_crashed, endOfRun_ends, hsettles, ← Bool.not_eq_true, Machine.stateText_complete,
        hshown _ hram']
      refine ⟨⟨fun hend p' hp' => hp.unique hp' ▸ hend, fun hall => hall p hp⟩, fun hpos => ?_, ?_⟩
      · rw [Machine.limitOf_eq_some.mpr ⟨hpos, (Int.toNat_of_nonneg (Int.le_of_lt hpos)).symm⟩] at hlimit
        exact hsettles.mp (Core.pending_run hlimit hasked)
      · constructor
        · rintro ⟨⟨c', hend⟩, hsmall⟩
          exact ⟨by omega, p, c', hp, hend⟩
        · rintro ⟨hsmall, p', c', hp', hend⟩
          obtain rfl := hp.unique hp'
          exact ⟨⟨c', hend⟩, by omega⟩
    · simp [hnone, hends, hcrash]

def narrowSettings (ramSize : Int) : Settings := { ramSize := ramSize, stackBase := ramSize - 1 }

def narrowTree : FileTree where
  entries := [([ascii "A.vm"], .file (ascii "push constant 7\npush constant 8\n"))]

/-- The second push traps behind the memory. -/
theorem checked_settings_run_sample : (narrowSettings 16).validate = .ok () ∧
    (run (narrowSettings 16) narrowTree (ascii "A.vm")).ends = true ∧
    (run (narrowSettings 16) narrowTree (ascii "A.vm")).ending ≠ .crashed := by
  have hcheck : (narrowSettings 16).validate = .ok () := rfl
  obtain ⟨c, -, -, hruns⟩ := checked_settings_run hcheck
  obtain ⟨-, hends, hcrash⟩ := hruns narrowTree (ascii "A.vm")
  have hend := hends (by decide)
  exact ⟨hcheck, hend, fun h => absurd (hcrash.mp ⟨hend, h⟩).1 (by decide)⟩

/-- A memory of fifteen words passes the check, and the run crashes. -/
theorem small_memory_not_shown : (narrowSettings 15).validate = .ok () ∧
    (run (narrowSettings 15) narrowTree (ascii "A.vm")).ends = true ∧
    (run (narrowSettings 15) narrowTree (ascii "A.vm")).ending = .crashed :=
  ⟨rfl, by decide +kernel, by decide +kernel⟩

end CommandLine

end HackStack
