import HackStack.Proofs.Machine.Endless
import HackStack.Proofs.Simulation.Outcome
import HackStack.Proofs.Suite.Verdicts
import HackStack.Suite.Load
import HackStack.Suite.Report
import Mathlib.Data.List.Forall2

/-!
# Reports on suites

A report has one result per case, in order, unless the run of a case goes on for ever or a case looks at memory that
does not exist. Two numbers of a case are not checked against the memory: an address whose contents are expected, and a
stack base below zero. A case whose numbers are in the memory and whose number of steps is bounded always has a result.
-/

namespace HackStack

/-! ## Runs of cases -/

theorem Machine.isSome_poke?_new (size value : Int) : ((new size).poke? 0 value).isSome = true := by
  have hpos : 0 < (new size).ram.size := by
    unfold new defaultRamSize
    rw [Array.size_replicate]
    split <;> omega
  unfold poke?
  rw [if_pos ⟨Int.le_refl 0, hpos⟩]
  rfl

theorem Simulation.fill_has : ∀ {entries : List (Int × Int)} {m m' : Machine}, fill m entries = .ok m' →
    ∀ e ∈ entries, m'.Has e.1
  | [], _, _, _ => nofun
  | (address, value) :: rest, m, m', h => by
    have hsize := size_fill h
    rw [fill] at h
    split at h
    · rename_i m₁ hpoke
      rw [List.forall_mem_cons]
      refine ⟨?_, fill_has h⟩
      unfold Machine.poke? at hpoke
      split at hpoke
      · rename_i hin
        unfold Machine.Has
        rw [hsize]
        omega
      · cases hpoke
    · cases h

theorem Simulation.prepare_has {m m' : Machine} {s : Setup} (h : prepare m s = .ok m') :
    ∀ address ∈ s.ram, m'.Has address := by
  unfold prepare at h
  split at h
  · cases h
  · intro address haddress
    obtain ⟨value, hvalue⟩ := Option.isSome_iff_exists.mp (Std.TreeMap.mem_iff_isSome_getElem?.mp haddress)
    exact fill_has h _ (Std.TreeMap.mem_toList_iff_getElem?_eq_some.mpr hvalue)

namespace Case

/-- The program that a case runs and the machine that it runs it on, if it comes to that: the case is not skipped, its
source is translated and assembled, and the memory is prepared. -/
def Starts (c : Case) (p : Asm.Program) (m : Machine) : Prop :=
  c.skip = [] ∧ ∃ t, (Translator.new c.setup.annotate c.setup.staticSymbols ({} : MemorySink)).file
      c.setup.withDefaults.fileName (.ok c.source) = (t, none) ∧
    Asm.assemble t.sink.text = .ok p ∧ Simulation.prepare (Machine.new c.setup.ramSize) c.setup.withDefaults = .ok m

def limit (c : Case) : Option Nat := Machine.limitOf c.setup.withDefaults.maxSteps

/-- Whether the run of a case ends at a machine. -/
def EndsAt (c : Case) (m' : Machine) (o : Machine.Outcome) : Prop :=
  ∃ p m fuel, c.Starts p m ∧ (m.load p).runFor c.limit fuel = (m', o) ∧ o ≠ .unfinished

/-- Whether a case does not go on for ever. -/
def Ends (c : Case) : Prop := ∀ p m, c.Starts p m → ∃ m' o, c.EndsAt m' o

/-- Whether a case looks only at memory that exists after its run. Its stack does not begin before the memory, unless
the stack pointer is past the memory and nothing is looked up; and if the run is compared with its expectation, the
expected addresses exist. -/
def InMemory (c : Case) : Prop :=
  ∀ m' o, c.EndsAt m' o →
    (0 ≤ c.stackBase ∨ m'.ram.size < m'.stackPointer) ∧
    (c.expect.error = [] → o = .halted → ∀ address ∈ c.expect.ram, m'.Has address)

section
variable {c : Case} {p : Asm.Program} {m : Machine}

theorem Starts.unique {p' : Asm.Program} {m' : Machine} (h : c.Starts p m) (h' : c.Starts p' m') : p = p' ∧ m = m' := by
  obtain ⟨-, t, ht, hp, hm⟩ := h
  obtain ⟨-, t', ht', hp', hm'⟩ := h'
  obtain ⟨rfl, -⟩ := Prod.mk.inj (ht.symm.trans ht')
  exact ⟨Except.ok.inj (hp.symm.trans hp'), Except.ok.inj (hm.symm.trans hm')⟩

theorem Starts.size (h : c.Starts p m) : m.ram.size = Machine.defaultRamSize := by
  obtain ⟨-, t, -, -, hm⟩ := h
  rw [(Simulation.prepare_size hm).2]
  exact Array.size_replicate

theorem EndsAt.size {m' : Machine} {o : Machine.Outcome} (h : c.EndsAt m' o) :
    m'.ram.size = Machine.defaultRamSize := by
  obtain ⟨p, m, fuel, hstarts, hrun, -⟩ := h
  have hsize := Machine.runFor_ram_size c.limit fuel (m.load p)
  rw [hrun] at hsize
  exact hsize.trans hstarts.size

theorem endsAt_iff (h : c.Starts p m) {m' : Machine} {o : Machine.Outcome} :
    c.EndsAt m' o ↔ (m.load p).run c.limit = (m', o) ∧ o ≠ .unfinished := by
  constructor
  · rintro ⟨p', m₁, fuel, hstarts, hrun, ho⟩
    obtain ⟨rfl, rfl⟩ := h.unique hstarts
    exact ⟨(Machine.run_eq_runFor (by rwa [hrun])).trans hrun, ho⟩
  · rintro ⟨hrun, ho⟩
    exact ⟨p, m, _, h, hrun, ho⟩

theorem ends_iff_of_run (h : c.Starts p m) {m' : Machine} {o : Machine.Outcome}
    (hrun : (m.load p).run c.limit = (m', o)) : c.Ends ↔ o ≠ .unfinished := by
  constructor
  · intro hends
    obtain ⟨m₁, o₁, hends₁⟩ := hends p m h
    obtain ⟨hrun₁, ho₁⟩ := (endsAt_iff h).mp hends₁
    obtain ⟨-, rfl⟩ := Prod.mk.inj (hrun.symm.trans hrun₁)
    exact ho₁
  · intro ho _ _ _
    exact ⟨m', o, (endsAt_iff h).mpr ⟨hrun, ho⟩⟩

theorem inMemory_iff_of_run (h : c.Starts p m) {m' : Machine} {o : Machine.Outcome}
    (hrun : (m.load p).run c.limit = (m', o)) (ho : o ≠ .unfinished) :
    c.InMemory ↔ (0 ≤ c.stackBase ∨ m'.ram.size < m'.stackPointer) ∧
      (c.expect.error = [] → o = .halted → ∀ address ∈ c.expect.ram, m'.Has address) := by
  constructor
  · exact fun hin => hin m' o ((endsAt_iff h).mpr ⟨hrun, ho⟩)
  · intro hin m₁ o₁ hends
    obtain ⟨hrun₁, -⟩ := (endsAt_iff h).mp hends
    obtain ⟨rfl, rfl⟩ := Prod.mk.inj (hrun.symm.trans hrun₁)
    exact hin

/-- A case that comes to no run has an error before it. -/
theorem simulate_cases (c : Case) (hskip : c.skip = []) :
    (∃ e, (simulate c.source c.setup).2 = .error e ∧ ∀ p m, ¬ c.Starts p m) ∨
      ∃ t p m, c.Starts p m ∧ (simulate c.source c.setup).2 =
        .ok (Simulation.execute c.setup.withDefaults t t.sink.text p m) := by
  cases hs : simulate c.source c.setup with
  | mk log outcome =>
    cases outcome with
    | error e =>
      refine .inl ⟨e, rfl, fun p m hstarts => ?_⟩
      obtain ⟨-, t, ht, hp, hm⟩ := hstarts
      rw [simulate_eq ht hp hm] at hs
      cases hs
    | ok sim =>
      obtain ⟨t, p, m, ht, hp, hm, rfl⟩ := simulate_ok hs
      exact .inr ⟨t, p, m, ⟨hskip, t, ht, hp, hm⟩, rfl⟩

theorem inMemory_of_range (hbase : 0 ≤ c.stackBase)
    (hexpected : ∀ address ∈ c.expect.ram, 0 ≤ address ∧ address < Machine.defaultRamSize) : c.InMemory := by
  intro m' o hends
  refine ⟨.inl hbase, fun _ _ address haddress => ?_⟩
  unfold Machine.Has
  rw [hends.size]
  exact hexpected address haddress

theorem ends_of_bounded (h : 0 ≤ c.maxSteps) : c.Ends := by
  intro p m hstarts
  have hlimit : c.limit ≠ none := by
    unfold limit Machine.limitOf Setup.withDefaults setup Setup.defaultMaxSteps
    dsimp only
    split <;> split <;> first | omega | simp
  refine ⟨_, _, (endsAt_iff hstarts).mpr ⟨rfl, fun hrun => ?_⟩⟩
  exact hlimit (Machine.run_unfinished_iff.mp hrun).1

end

/-! ## Results of cases -/

/-- Nothing is looked up outside the memory if an error is expected or has occurred, or if the expected addresses
exist. -/
theorem isSome_complaint? {want : Expectation} {s : Simulation} {stack : List Int} :
    (complaint? want s stack).isSome = true ↔ (want.error = [] → s.error = none →
      ∀ address ∈ want.ram, s.machine.Has address) := by
  unfold complaint?
  cases hwant : want.error with
  | cons b rest => simp
  | nil =>
    cases hs : s.error with
    | some e => simp
    | none =>
      have hmem : (∀ address ∈ want.ram, s.machine.Has address) ↔
          ∀ e ∈ want.ram.toList, (s.machine.peek? e.1).isSome = true := by
        simp only [Machine.isSome_peek?]
        constructor
        · intro h e he
          refine h e.1 ?_
          rw [Std.TreeMap.mem_iff_isSome_getElem?, Std.TreeMap.mem_toList_iff_getElem?_eq_some.mp he]
          rfl
        · intro h address haddress
          obtain ⟨value, hvalue⟩ := Option.isSome_iff_exists.mp (Std.TreeMap.mem_iff_isSome_getElem?.mp haddress)
          exact h _ (Std.TreeMap.mem_toList_iff_getElem?_eq_some.mpr hvalue)
      simp only [List.isEmpty_nil, Bool.not_true, Bool.false_eq_true, if_false, Option.isSome_map, true_imp_iff, hmem]
      obtain ⟨hnone, e, he, hpeek⟩ | ⟨texts, hsome, hexist, -⟩ := memoryMismatch_cases s.machine want.ram.toList
      · rw [hnone]
        refine iff_of_false (by simp) fun h => ?_
        have hpeek' := h e he
        rw [hpeek] at hpeek'
        cases hpeek'
      · rw [hsome]
        exact iff_of_true rfl hexist

theorem isSome_resultOf? {c : Case} {sim : Simulation} : (c.resultOf? (.ok sim)).isSome = true ↔
    sim.ended = true ∧ sim.stack.isSome = true ∧ (c.expect.error = [] → sim.error = none →
      ∀ address ∈ c.expect.ram, sim.machine.Has address) := by
  rw [resultOf?]
  cases sim.ended with
  | false => simp
  | true =>
    cases sim.stack with
    | none => simp
    | some stack =>
      rw [← @isSome_complaint? c.expect sim stack]
      cases hcomplaint : complaint? c.expect sim stack <;> simp [hcomplaint]

theorem stackBase_nonneg {c : Case} : 0 ≤ c.setup.withDefaults.stackBase ↔ 0 ≤ c.stackBase := by
  unfold Setup.withDefaults setup Setup.defaultStackBase
  dsimp only
  split <;> omega

theorem error?_eq_none {m : Machine} {o : Machine.Outcome} (h : o ≠ .unfinished) : o.error? m = none ↔ o = .halted := by
  cases o <;> simp_all [Machine.Outcome.error?]

theorem isSome_execute {c : Case} {t : Translator MemorySink} {text : Text} {p : Asm.Program} {m m' : Machine}
    {o : Machine.Outcome} (hrun : (m.load p).run c.limit = (m', o)) :
    (c.resultOf? (.ok (Simulation.execute c.setup.withDefaults t text p m))).isSome = true ↔
      o ≠ .unfinished ∧ (0 ≤ c.stackBase ∨ m'.ram.size < m'.stackPointer) ∧
        (c.expect.error = [] → o = .halted → ∀ address ∈ c.expect.ram, m'.Has address) := by
  unfold limit at hrun
  unfold Simulation.execute
  rw [isSome_resultOf?, hrun, Machine.isSome_stack?, stackBase_nonneg, bne_iff_ne]
  exact and_congr_right fun ho => and_congr_right' (by rw [error?_eq_none ho])

/-- A case has a result exactly if it does not go on for ever and looks only at memory that exists. -/
theorem isSome_run {c : Case} : c.run.2.isSome = true ↔ c.Ends ∧ c.InMemory := by
  by_cases hskip : c.skip = []
  · rw [run_of_not_skipped hskip]
    obtain ⟨e, hs, hno⟩ | ⟨t, p, m, hstarts, hs⟩ := simulate_cases c hskip
    · rw [hs]
      refine iff_of_true rfl ⟨fun p m h => absurd h (hno p m), ?_⟩
      rintro m' o ⟨p, m, fuel, h, -⟩
      exact absurd h (hno p m)
    · cases hrun : (m.load p).run c.limit with
      | mk m' o =>
        rw [hs, isSome_execute hrun, ends_iff_of_run hstarts hrun]
        exact and_congr_right fun ho => (inMemory_iff_of_run hstarts hrun ho).symm
  · rw [run_of_skipped hskip]
    refine iff_of_true rfl ⟨fun p m h => absurd h.1 hskip, ?_⟩
    rintro m' o ⟨p, m, fuel, h, -⟩
    exact absurd h.1 hskip

theorem ends_iff {c : Case} : c.ends = true ↔ c.Ends := by
  unfold ends
  by_cases hskip : c.skip = []
  · obtain ⟨e, hs, hno⟩ | ⟨t, p, m, hstarts, hs⟩ := simulate_cases c hskip
    · rw [hs, Bool.or_true]
      exact iff_of_true rfl fun p m h => absurd h (hno p m)
    · rw [hs, hskip, ends_iff_of_run hstarts rfl]
      exact bne_iff_ne
  · rw [show (!c.skip.isEmpty) = true by simpa using hskip, Bool.true_or]
    exact iff_of_true rfl fun p m h => absurd h.1 hskip

theorem run_name {c : Case} {r : CaseResult} (h : c.run.2 = some r) : r.name = c.name := by
  by_cases hskip : c.skip = []
  · rw [run_of_not_skipped hskip] at h
    have hverdict : ∀ complaint issues steps, (c.verdict complaint issues steps).name = c.name := by
      intro complaint issues steps
      unfold verdict
      cases complaint with
      | nil => cases issues <;> rfl
      | cons b rest => rfl
    cases hs : (simulate c.source c.setup).2 with
    | error e =>
      rw [hs, resultOf?, Option.some.injEq] at h
      subst h
      exact hverdict _ _ _
    | ok sim =>
      rw [hs] at h
      obtain ⟨-, stack, complaint, -, -, rfl⟩ := resultOf?_ok.mp h
      exact hverdict _ _ _
  · rw [run_of_skipped hskip] at h
    cases h
    rfl

/-- Whether a result is that of a case of a suite. -/
def Answers (suite : Text) (c : Case) (r : CaseResult) : Prop :=
  ∃ result, c.run.2 = some result ∧ r = { result with suite := suite }

theorem Answers.isSome {suite : Text} {c : Case} {r : CaseResult} (h : c.Answers suite r) :
    c.run.2.isSome = true := by
  obtain ⟨result, hresult, -⟩ := h
  rw [hresult]
  rfl

theorem Answers.name {suite : Text} {c : Case} {r : CaseResult} (h : c.Answers suite r) : r.name = c.name := by
  obtain ⟨result, hresult, rfl⟩ := h
  exact (run_name hresult :)

end Case

/-! ## Reports -/

theorem Suite.runCases_cases (suite : Text) : ∀ (cases : List Case) (log : Array LogRecord) (done : List CaseResult),
    ((∃ c ∈ cases, c.run.2 = none) ∧ (runCases suite log done cases).2 = none) ∨
      ∃ new, List.Forall₂ (Case.Answers suite) cases new ∧
        (runCases suite log done cases).2 = some (done.reverse ++ new)
  | [], _, _ => .inr ⟨[], .nil, by rw [List.append_nil]; rfl⟩
  | c :: rest, log, done => by
    rw [runCases]
    cases hrun : c.run with
    | mk records result =>
      cases result with
      | none => exact .inl ⟨⟨c, List.mem_cons_self, by rw [hrun]⟩, rfl⟩
      | some r =>
        obtain ⟨⟨c', hc', hnone⟩, hruns⟩ | ⟨new, hanswers, hruns⟩ := runCases_cases suite rest
          (log ++ records) ({ r with suite := suite } :: done)
        · exact .inl ⟨⟨c', List.mem_cons_of_mem _ hc', hnone⟩, hruns⟩
        · refine .inr ⟨_, .cons ⟨r, by rw [hrun], rfl⟩ hanswers, ?_⟩
          rw [List.reverse_cons, List.append_assoc] at hruns
          exact hruns

namespace Report

/-- The cases of some suites in order, each with the name of its suite. -/
def agenda (suites : List Suite) : List (Text × Case) := suites.flatMap fun s => s.cases.map fun c => (s.name, c)

theorem runSuites_cases : ∀ (suites : List Suite) (log : Array LogRecord) (done : List CaseResult),
    ((∃ s ∈ suites, ∃ c ∈ s.cases, c.run.2 = none) ∧ (runSuites log done suites).2 = none) ∨
      ∃ new, List.Forall₂ (fun e r => e.2.Answers e.1 r) (agenda suites) new ∧
        (runSuites log done suites).2 = some (done ++ new)
  | [], _, _ => .inr ⟨[], .nil, by rw [List.append_nil]; rfl⟩
  | s :: rest, log, done => by
    rw [runSuites]
    obtain ⟨hnone, hrun⟩ | ⟨first, hfirst, hrun⟩ := Suite.runCases_cases s.name s.cases #[] []
    · have hnone' : ∃ s' ∈ s :: rest, ∃ c ∈ s'.cases, c.run.2 = none := ⟨s, List.mem_cons_self, hnone⟩
      cases hs : s.run with
      | mk records results =>
        have hresults : results = none := by rw [← hrun, ← Suite.run, hs]
        subst hresults
        exact .inl ⟨hnone', rfl⟩
    · cases hs : s.run with
      | mk records results =>
        have hresults : results = some first := by
          rw [List.reverse_nil, List.nil_append] at hrun
          rw [← hrun, ← Suite.run, hs]
        subst hresults
        obtain ⟨⟨s', hs', hnone⟩, hruns⟩ | ⟨new, hanswers, hruns⟩ := runSuites_cases rest (log ++ records)
          (done ++ first)
        · exact .inl ⟨⟨s', List.mem_cons_of_mem _ hs', hnone⟩, hruns⟩
        · refine .inr ⟨first ++ new, ?_, ?_⟩
          · rw [agenda, List.flatMap_cons]
            exact List.rel_append (R := fun (e : Text × Case) r => e.2.Answers e.1 r)
              (List.forall₂_map_left_iff.mpr hfirst) hanswers
          · rw [List.append_assoc] at hruns
            exact hruns

/-- There is a report on some suites exactly if every case comes to an end and looks only at memory that exists, and then
it has one result per case, in order. A case looks only at memory that exists if neither its stack base nor an address
that it expects something at is outside the memory, and it comes to an end if its number of steps is not negative. All
other accesses are to memory that exists: the preparation stores the stack pointer and the initial contents, and a
machine on the way executes an instruction exactly if it has the word that the instruction reads or writes. -/
theorem generate_answers (suites : List Suite) :
    ((generate suites).2.isSome = true ↔ ∀ s ∈ suites, ∀ c ∈ s.cases, c.Ends ∧ c.InMemory) ∧
    (∀ report, (generate suites).2 = some report →
      List.Forall₂ (fun e r => e.2.Answers e.1 r ∧ r.name = e.2.name) (agenda suites) report.results) ∧
    ∀ s ∈ suites, ∀ c ∈ s.cases,
      (0 ≤ c.stackBase → (∀ address ∈ c.expect.ram, 0 ≤ address ∧ address < Machine.defaultRamSize) → c.InMemory) ∧
      (0 ≤ c.maxSteps → c.Ends) ∧
      ((Machine.new c.setup.ramSize).poke? 0 c.setup.withDefaults.stackBase).isSome = true ∧
      ∀ p m, c.Starts p m → (∀ address ∈ c.ram, m.Has address) ∧
        ∀ k m', Machine.Executes k (m.load p) m' → m'.halted = false →
          (m'.step.2 = none ↔ ∀ address ∈ m'.stepAddresses, m'.Has address) := by
  have hgenerate : (generate suites).2 = (runSuites #[] [] suites).2.map Report.mk := rfl
  refine ⟨?_, ?_, fun s _ c _ => ⟨Case.inMemory_of_range, Case.ends_of_bounded, Machine.isSome_poke?_new _ _, ?_⟩⟩
  · rw [hgenerate]
    simp only [Option.isSome_map, ← Case.isSome_run]
    obtain ⟨⟨s, hs, c, hc, hnone⟩, hruns⟩ | ⟨new, hanswers, hruns⟩ := runSuites_cases suites #[] []
    · rw [hruns]
      refine iff_of_false (by simp) fun h => ?_
      have hsome := h s hs c hc
      rw [hnone] at hsome
      cases hsome
    · rw [hruns]
      refine iff_of_true rfl fun s hs c hc => ?_
      have hall : ∀ e ∈ agenda suites, e.2.run.2.isSome = true :=
        ((List.forall₂_and_left _ _).mp (hanswers.imp fun e r h => ⟨h.isSome, h⟩)).1
      exact hall (s.name, c) (List.mem_flatMap.mpr ⟨s, hs, List.mem_map_of_mem hc⟩)
  · intro report hreport
    rw [hgenerate] at hreport
    obtain ⟨-, hruns⟩ | ⟨new, hanswers, hruns⟩ := runSuites_cases suites #[] []
    · rw [hruns] at hreport
      cases hreport
    · rw [hruns] at hreport
      cases hreport
      exact hanswers.imp fun e r h => ⟨h, h.name⟩
  · intro p m hstarts
    obtain ⟨-, t, -, -, hm⟩ := hstarts
    exact ⟨Simulation.prepare_has hm, fun k m' _ hh => Machine.step_eq_none hh⟩

/-- A case that expects something at an address below zero, and one that has its stack there. -/
def outsideSuites : List Suite :=
  [{ cases := [{ name := ascii "a", expect := { ram := (∅ : MemoryImage).insert (-1) 0 } }] },
    { cases := [{ name := ascii "a", stackBase := -41000 }] }]

def outsideTree : FileTree where
  entries :=
    [([ascii "cell.yaml"], .file (ascii "cases:\n  - name: a\n    expect:\n      ram: \x7b-1: 0\x7d\n")),
      ([ascii "stack.yaml"], .file (ascii "cases:\n  - name: a\n    stack_base: -41000\n"))]

/-- There is no report on either suite, though all their cases come to an end, and none on either file. -/
theorem loaded_without_report :
    (∀ s ∈ outsideSuites, (generate [s]).2.isNone = true ∧ ∀ c ∈ s.cases, c.Ends) ∧
      (∃ s ∈ (Suite.load outsideTree (ascii "cell.yaml")).toOption, (generate [s]).2.isNone = true) ∧
      ∃ s ∈ (Suite.load outsideTree (ascii "stack.yaml")).toOption, (generate [s]).2.isNone = true := by
  have hbounded : ∀ s ∈ outsideSuites, ∀ c ∈ s.cases, 0 ≤ c.maxSteps := by decide
  have hnone : ∀ s ∈ outsideSuites, (generate [s]).2.isNone = true := by decide +kernel
  refine ⟨fun s hs => ⟨hnone s hs, fun c hc => Case.ends_of_bounded (hbounded s hs c hc)⟩, ?_, ?_⟩
  · decide +kernel
  · decide +kernel

end Report

end HackStack
