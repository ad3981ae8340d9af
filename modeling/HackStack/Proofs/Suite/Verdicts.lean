import HackStack.Proofs.Machine.Forward
import HackStack.Suite

/-!
# Verdicts on cases

A case passes if its simulation ends without an error and shows all that is expected. The stack that a simulation shows
is empty not only if the stack pointer is at the base, but also if it is below the base or past the memory. So a case
that expects values has them in its memory once it passes, and one that expects an empty stack may have any of the
three.
-/

namespace HackStack

/-! ## Memory of a machine -/

namespace Machine

theorem runFor_ram_size (limit : Option Nat) : ∀ (fuel : Nat) (m : Machine),
    (runFor limit fuel m).1.ram.size = m.ram.size
  | 0, _ => rfl
  | fuel + 1, m => by
    rw [runFor]
    split
    · rfl
    · split
      · rfl
      · split
        · rfl
        · rw [runFor_ram_size limit fuel, execute_ram_size]

theorem peek?_eq_some {m : Machine} {address value : Int} :
    m.peek? address = some value ↔ 0 ≤ address ∧ (m.ram[address.toNat]?).map signedWord = some value := by
  unfold peek?
  split
  · rename_i h
    simp [h]
  · rename_i h
    simp [h]

theorem isSome_peek? {m : Machine} {address : Int} :
    (m.peek? address).isSome = true ↔ 0 ≤ address ∧ address < m.ram.size := by
  unfold peek?
  split
  · rename_i h
    simp only [Option.isSome_map, Option.isSome_iff_exists, Array.getElem?_eq_some_iff]
    constructor
    · rintro ⟨word, hlt, -⟩
      omega
    · rintro ⟨-, hlt⟩
      exact ⟨_, by omega, rfl⟩
  · rename_i h
    simp [h]

theorem isSome_stack? {m : Machine} {base : Int} :
    (m.stack? base).isSome = true ↔ 0 ≤ base ∨ m.ram.size < m.stackPointer := by
  unfold stack?
  split
  · simp only [Option.isSome_some, true_iff]
    omega
  · split
    · simp only [Option.isSome_none, Bool.false_eq_true, false_iff]
      omega
    · simp only [Option.isSome_some, true_iff]
      omega

/-- Whether some values fill the memory from a base up to the stack pointer. -/
def Stacks (m : Machine) (base : Int) (values : List Int) : Prop :=
  (m.stackPointer : Int) = base + values.length ∧
    ∀ (i : Nat) (v : Int), values[i]? = some v → m.peek? (base + i) = some v

/-- A stack that is shown is empty with the pointer at the base or out of place, or its values are in the memory. -/
theorem stack?_cases {m : Machine} {base : Int} {values : List Int} (h : m.stack? base = some values) :
    (values = [] ∧ ((m.stackPointer : Int) ≤ base ∨ m.ram.size < m.stackPointer)) ∨
      (values ≠ [] ∧ base ≤ m.stackPointer ∧ m.stackPointer ≤ m.ram.size ∧ m.Stacks base values) := by
  unfold stack? at h
  split at h
  · rename_i hout
    cases h
    exact .inl ⟨rfl, hout⟩
  · rename_i hin
    split at h
    · cases h
    · rename_i hbase
      rw [not_or, Int.not_le, Nat.not_lt] at hin
      obtain ⟨hlow, hhigh⟩ := hin
      have hlength : values.length = m.stackPointer - base.toNat := by
        cases h
        rw [List.length_map, Array.length_toList, Array.size_extract, Nat.min_eq_left hhigh]
      refine .inr ⟨?_, by omega, hhigh, by omega, ?_⟩
      · rintro rfl
        simp only [List.length_nil] at hlength
        omega
      · intro i v hv
        have hi : i < values.length := (List.getElem?_eq_some_iff.mp hv).1
        have haddress : (base + i).toNat = base.toNat + i := by omega
        rw [peek?_eq_some, haddress]
        refine ⟨by omega, ?_⟩
        cases h
        rw [List.getElem?_map, Array.getElem?_toList, Array.getElem?_extract, if_pos (by omega)] at hv
        exact hv

end Machine

/-! ## Simulations -/

namespace Simulation

theorem size_fill : ∀ {entries : List (Int × Int)} {m m' : Machine}, fill m entries = .ok m' →
    m'.ram.size = m.ram.size
  | [], _, _, h => by cases h; rfl
  | (address, value) :: rest, m, m', h => by
    rw [fill] at h
    split at h
    · rename_i m₁ hpoke
      rw [size_fill h]
      unfold Machine.poke? at hpoke
      split at hpoke
      · cases hpoke
        exact Array.size_setIfInBounds
      · cases hpoke
    · cases h

theorem prepare_size {m m' : Machine} {s : Setup} (h : prepare m s = .ok m') :
    s.stackBase < m.ram.size ∧ m'.ram.size = m.ram.size := by
  unfold prepare at h
  split at h
  · cases h
  · rename_i hbase
    refine ⟨by omega, ?_⟩
    rw [size_fill h]
    unfold Machine.poke?
    split
    · exact Array.size_setIfInBounds
    · rfl

end Simulation

theorem simulate_ok {source : Text} {setup : Setup} {log : Array LogRecord} {sim : Simulation}
    (h : simulate source setup = (log, .ok sim)) :
    ∃ t p m, (Translator.new setup.annotate setup.staticSymbols ({} : MemorySink)).file setup.withDefaults.fileName
        (.ok source) = (t, none) ∧
      Asm.assemble t.sink.text = .ok p ∧ Simulation.prepare (Machine.new setup.ramSize) setup.withDefaults = .ok m ∧
      sim = Simulation.execute setup.withDefaults t t.sink.text p m := by
  unfold simulate at h
  dsimp only at h
  split at h
  · cases h
  · rename_i t ht
    rw [Prod.mk.injEq] at h
    obtain ⟨-, h⟩ := h
    unfold Simulation.ofTranslation at h
    split at h
    · cases h
    · rename_i p hp
      split at h
      · cases h
      · rename_i m hm
        cases h
        exact ⟨t, p, m, ht, hp, hm, rfl⟩

/-- The stack of a simulation is that of its machine, which has the memory that it was made with. -/
theorem simulate_stack {source : Text} {setup : Setup} {log : Array LogRecord} {sim : Simulation}
    (h : simulate source setup = (log, .ok sim)) :
    sim.stack = sim.machine.stack? setup.withDefaults.stackBase ∧
      sim.machine.ram.size = (Machine.new setup.ramSize).ram.size ∧
      setup.withDefaults.stackBase < sim.machine.ram.size := by
  obtain ⟨t, p, m, -, -, hm, rfl⟩ := simulate_ok h
  obtain ⟨hbase, hsize⟩ := Simulation.prepare_size hm
  have hrun : ((m.load p).run (Machine.limitOf setup.withDefaults.maxSteps)).1.ram.size = m.ram.size :=
    Machine.runFor_ram_size _ _ _
  have hend : (Simulation.execute setup.withDefaults t t.sink.text p m).machine.ram.size =
      (Machine.new setup.ramSize).ram.size := hrun.trans hsize
  refine ⟨rfl, hend, ?_⟩
  rw [hend]
  exact hbase

/-! ## Complaints -/

namespace Case

theorem memoryMismatch_cases (m : Machine) : ∀ entries : List (Int × Int),
    (memoryMismatch m entries = none ∧ ∃ e ∈ entries, m.peek? e.1 = none) ∨
      ∃ texts, memoryMismatch m entries = some texts ∧ (∀ e ∈ entries, (m.peek? e.1).isSome = true) ∧
        (∀ t ∈ texts, t ≠ []) ∧ (texts = [] ↔ ∀ e ∈ entries, m.peek? e.1 = some e.2)
  | [] => .inr ⟨[], rfl, by simp, by simp, by simp⟩
  | (address, value) :: rest => by
    rw [memoryMismatch]
    cases hpeek : m.peek? address with
    | none => exact .inl ⟨rfl, _, List.mem_cons_self, hpeek⟩
    | some found =>
      obtain ⟨hnone, e, he, hpeek'⟩ | ⟨texts, hsome, hexist, htexts, hnil⟩ := memoryMismatch_cases m rest
      · rw [hnone]
        exact .inl ⟨rfl, e, List.mem_cons_of_mem _ he, hpeek'⟩
      · have hexist' : ∀ e ∈ (address, value) :: rest, (m.peek? e.1).isSome = true := by
          rw [List.forall_mem_cons]
          exact ⟨by simp [hpeek], hexist⟩
        rw [hsome]
        simp only [bind, Option.bind_some]
        right
        by_cases hvalue : found = value
        · rw [if_pos hvalue]
          refine ⟨texts, rfl, hexist', htexts, ?_⟩
          rw [hnil, List.forall_mem_cons]
          simp [hpeek, hvalue]
        · rw [if_neg hvalue]
          refine ⟨_, rfl, hexist', ?_, ?_⟩
          · rw [List.forall_mem_cons]
            exact ⟨by simp [ascii], htexts⟩
          · simp [hpeek, hvalue]

theorem join_eq_nil {separator : Text} : ∀ {texts : List Text}, (∀ t ∈ texts, t ≠ []) →
    (Text.join separator texts = [] ↔ texts = [])
  | [], _ => by simp [Text.join]
  | [t], h => by simpa [Text.join] using h
  | t :: t' :: rest, h => by
    rw [List.forall_mem_cons] at h
    simp [Text.join, List.intercalate, h.1]

theorem stackMismatch_cases (want : Expectation) (stack : List Int) : (∀ t ∈ stackMismatch want stack, t ≠ []) ∧
    (stackMismatch want stack = [] ↔ ∀ values, want.stack = some values → values = stack) := by
  unfold stackMismatch
  cases want.stack with
  | none => simp
  | some values =>
    by_cases h : values = stack
    · simp [h]
    · simp [h, ascii]

theorem comparisonMismatch_cases (want : Expectation) (comparisons : Nat) :
    (∀ t ∈ comparisonMismatch want comparisons, t ≠ []) ∧
      (comparisonMismatch want comparisons = [] ↔ ∀ n, want.comparisons = some n → (comparisons : Int) = n) := by
  unfold comparisonMismatch
  cases want.comparisons with
  | none => simp
  | some n =>
    by_cases h : (comparisons : Int) = n
    · simp [h]
    · simp [h, ascii]

/-- Whether a simulation that ended without an error shows what is expected of it. -/
structure Shows (want : Expectation) (s : Simulation) (stack : List Int) : Prop where
  error : s.error = none
  stack : ∀ values, want.stack = some values → values = stack
  memory : ∀ address value, want.ram[address]? = some value → s.machine.peek? address = some value
  comparisons : ∀ n, want.comparisons = some n → (s.comparisons : Int) = n

/-- Without an expected error nothing is wrong with a simulation exactly if it shows what is expected. -/
theorem complaint?_eq_nil {want : Expectation} (herror : want.error = []) {s : Simulation} {stack : List Int} :
    complaint? want s stack = some [] ↔ Shows want s stack := by
  unfold complaint?
  rw [herror]
  simp only [List.isEmpty_nil, Bool.not_true, Bool.false_eq_true, if_false]
  cases hs : s.error with
  | some e =>
    constructor
    · intro h
      simp [ascii] at h
    · intro h
      rw [h.error] at hs
      cases hs
  | none =>
    obtain ⟨hstacks, hstack⟩ := stackMismatch_cases want stack
    obtain ⟨hcounts, hcount⟩ := comparisonMismatch_cases want s.comparisons
    have hmemory : ∀ address value, want.ram[address]? = some value ↔ (address, value) ∈ want.ram.toList := by
      intro address value
      exact Std.TreeMap.mem_toList_iff_getElem?_eq_some.symm
    obtain ⟨hnone, e, he, hpeek⟩ | ⟨texts, hsome, -, htexts, hnil⟩ := memoryMismatch_cases s.machine want.ram.toList
    · rw [hnone]
      constructor
      · intro h
        cases h
      · intro h
        rw [h.memory e.1 e.2 ((hmemory e.1 e.2).mpr he)] at hpeek
        cases hpeek
    · have hall : ∀ t ∈ stackMismatch want stack ++ texts ++ comparisonMismatch want s.comparisons, t ≠ [] :=
        List.forall_mem_append.mpr ⟨List.forall_mem_append.mpr ⟨hstacks, htexts⟩, hcounts⟩
      rw [hsome, Option.map_some, Option.some.injEq, join_eq_nil hall, List.append_eq_nil_iff, List.append_eq_nil_iff,
        hstack, hnil, hcount]
      constructor
      · rintro ⟨⟨hstack, hcells⟩, hcount⟩
        exact ⟨hs, hstack, fun address value h => hcells _ ((hmemory address value).mp h), hcount⟩
      · intro h
        exact ⟨⟨h.stack, fun e he => h.memory e.1 e.2 ((hmemory e.1 e.2).mpr he)⟩, h.comparisons⟩

theorem verdict_passed {c : Case} {complaint : Text} {issues : List Issue} {steps : Nat} :
    (c.verdict complaint issues steps).passed = true ↔ complaint = [] ∧ issues = [] := by
  unfold verdict
  cases complaint with
  | nil => cases issues <;> simp
  | cons b rest => simp

theorem run_of_not_skipped {c : Case} (h : c.skip = []) : c.run.2 = c.resultOf? (simulate c.source c.setup).2 := by
  unfold run
  rw [h]
  simp only [List.isEmpty_nil, Bool.not_true, Bool.false_eq_true, if_false]
  split
  · rename_i hnone
    rw [hnone]
  · rename_i r hsome
    rw [hsome]

theorem run_of_skipped {c : Case} (h : c.skip ≠ []) :
    c.run.2 = some { name := c.name, skipped := true, reason := c.skip } := by
  unfold run
  rw [if_pos (by simpa using h)]

theorem resultOf?_ok {c : Case} {sim : Simulation} {r : CaseResult} : c.resultOf? (.ok sim) = some r ↔
    sim.ended = true ∧ ∃ stack complaint, sim.stack = some stack ∧ complaint? c.expect sim stack = some complaint ∧
      c.verdict complaint (lint sim.assembly) sim.machine.steps = r := by
  rw [resultOf?]
  cases sim.ended with
  | false => simp
  | true => simp [Option.bind_eq_some_iff]

/-- A case that expects no error passes exactly if it is not skipped, its simulation ends and shows what is expected,
and the assembly has no issue. -/
theorem run_passed {c : Case} {r : CaseResult} (herror : c.expect.error = []) (hr : c.run.2 = some r) :
    r.passed = true ↔ c.skip = [] ∧ ∃ log sim stack, simulate c.source c.setup = (log, .ok sim) ∧
      sim.ended = true ∧ sim.stack = some stack ∧ Shows c.expect sim stack ∧ lint sim.assembly = [] := by
  by_cases hskip : c.skip = []
  · rw [run_of_not_skipped hskip] at hr
    cases hs : simulate c.source c.setup with
    | mk log outcome =>
      rw [hs] at hr
      simp only [hskip, true_and, Prod.mk.injEq]
      cases outcome with
      | error e =>
        rw [resultOf?, Option.some.injEq, herror] at hr
        subst hr
        simp [verdict_passed, ascii]
      | ok sim =>
        obtain ⟨hended, stack, complaint, hstack, hcomplaint, rfl⟩ := resultOf?_ok.mp hr
        have hshows := @complaint?_eq_nil c.expect herror sim stack
        rw [hcomplaint, Option.some.injEq] at hshows
        rw [verdict_passed, hshows]
        simp [hended, hstack]
  · rw [run_of_skipped hskip, Option.some.injEq] at hr
    subst hr
    simp [hskip]

/-- A case without an expected error that passes with an expected stack. Its run has ended without an error. The values
are on the stack, and no others, exactly if the stack pointer is between the base and the end of the memory. It is there
if any value is expected; a case that expects an empty stack also passes with the pointer below the base or past the
memory. -/
theorem stack_expectation_holds {c : Case} {r : CaseResult} {values : List Int} (herror : c.expect.error = [])
    (hstack : c.expect.stack = some values) (hr : c.run.2 = some r) (hpassed : r.passed = true) :
    ∃ log sim, simulate c.source c.setup = (log, .ok sim) ∧ sim.ended = true ∧ sim.error = none ∧
      let base := c.setup.withDefaults.stackBase
      let m := sim.machine
      (m.Stacks base values ↔ base ≤ m.stackPointer ∧ m.stackPointer ≤ m.ram.size) ∧
      (values ≠ [] → base ≤ m.stackPointer ∧ m.stackPointer ≤ m.ram.size) ∧
      (values = [] → m.stackPointer ≤ base ∨ m.ram.size < m.stackPointer) := by
  obtain ⟨-, log, sim, stack, hsim, hended, hshown, hshows, -⟩ := (run_passed herror hr).mp hpassed
  obtain rfl := hshows.stack values hstack
  obtain ⟨hmachine, -, hbase⟩ := simulate_stack hsim
  refine ⟨log, sim, hsim, hended, hshows.error, ?_⟩
  -- An empty list is shown in three places of the pointer, and only one of them is at the base.
  obtain ⟨rfl, hout⟩ | ⟨hne, hlow, hhigh, hstacks⟩ := Machine.stack?_cases (hmachine.symm.trans hshown)
  · refine ⟨⟨?_, ?_⟩, fun h => absurd rfl h, fun _ => hout⟩
    · rintro ⟨hpointer, -⟩
      simp only [List.length_nil] at hpointer
      omega
    · rintro ⟨hlow, hhigh⟩
      refine ⟨?_, by simp⟩
      simp only [List.length_nil]
      omega
  · exact ⟨⟨fun _ => ⟨hlow, hhigh⟩, fun _ => hstacks⟩, fun _ => ⟨hlow, hhigh⟩, fun h => absurd h hne⟩

def sumCase : Case where
  name := ascii "sum"
  source := ascii "push constant 7\npush constant 8\nadd\n"
  expect := { stack := some [15] }

theorem stack_expectation_holds_sample :
    ∃ log sim, simulate sumCase.source sumCase.setup = (log, .ok sim) ∧ sim.machine.Stacks 256 [15] := by
  have hpassed : ∃ r ∈ sumCase.run.2, r.passed = true := by decide +kernel
  obtain ⟨r, hr, hpassed⟩ := hpassed
  obtain ⟨log, sim, hsim, -, -, hiff, hin, -⟩ := stack_expectation_holds (c := sumCase) rfl rfl hr hpassed
  exact ⟨log, sim, hsim, hiff.mpr (hin (by decide))⟩

def underflowCase : Case where
  name := ascii "underflow"
  source := ascii "pop temp 0\n"
  expect := { stack := some [] }

/-- The stack pointer has gone below the base, and still the stack passes as empty. -/
theorem underflow_passes :
    (∃ r ∈ underflowCase.run.2, r.passed = true) ∧
      ∃ sim ∈ (simulate underflowCase.source underflowCase.setup).2.toOption,
        sim.machine.stackPointer = 255 ∧ ¬ sim.machine.Stacks 256 [] := by
  have hpointer : ∃ sim ∈ (simulate underflowCase.source underflowCase.setup).2.toOption,
      sim.machine.stackPointer = 255 := by decide +kernel
  obtain ⟨sim, hsim, hpointer⟩ := hpointer
  refine ⟨by decide +kernel, sim, hsim, hpointer, fun h => ?_⟩
  have hstacks := h.1
  simp [hpointer] at hstacks

end Case

end HackStack
