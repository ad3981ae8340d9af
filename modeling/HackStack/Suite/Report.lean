import HackStack.Suite
import HackStack.Table

/-!
# Reports

A report collects the results of some suites: a table with one row per case, a line of totals, and the lint
issues.
-/

namespace HackStack

structure Report where
  results : List CaseResult
  deriving DecidableEq, Repr

namespace Report

def runSuites (log : Array LogRecord) (done : List CaseResult) :
    List Suite → Array LogRecord × Option (List CaseResult)
  | [] => (log, some done)
  | s :: rest =>
    match s.run with
    | (records, none) => (log ++ records, none)
    | (records, some results) => runSuites (log ++ records) (done ++ results) rest

/-- The report on some suites. There is none if a case goes on for ever or looks outside the memory. -/
def generate (suites : List Suite) : Array LogRecord × Option Report :=
  match runSuites #[] [] suites with
  | (log, results) => (log, results.map Report.mk)

/-- Whether the report on some suites comes to an end. Without a report, the first case without a result tells. -/
def ends (suites : List Suite) : Bool :=
  ((suites.flatMap Suite.cases).find? fun c => c.run.2.isNone).all Case.ends

inductive Status where
  | passed
  | failed
  | skipped
  deriving DecidableEq, Repr

def statusOf (r : CaseResult) : Status :=
  if r.skipped then .skipped else if r.passed then .passed else .failed

def Status.word : Status → Text
  | passed => ascii "PASS"
  | failed => ascii "FAIL"
  | skipped => ascii "SKIP"

def count (r : Report) (s : Status) : Nat := r.results.countP fun c => statusOf c == s

def ok (r : Report) : Bool := r.count .failed == 0

def table (r : Report) : Table :=
  { title := ascii "VM TRANSLATION CONFORMANCE"
    header := [ascii "Suite", ascii "Case", ascii "Result", ascii "Steps", ascii "Detail"]
    rows := r.results.map fun c =>
      [.text c.suite, .text c.name, .text (statusOf c).word, .number c.steps, .text c.reason] }

def totals (r : Report) : Text :=
  Text.decimal r.results.length ++ ascii " cases: " ++ Text.decimal (r.count .passed) ++ ascii " passed, " ++
    Text.decimal (r.count .failed) ++ ascii " failed, " ++ Text.decimal (r.count .skipped) ++ ascii " skipped\n"

def issuesOf (c : CaseResult) : Text :=
  if c.issues.isEmpty then []
  else ascii "\nLint issues in " ++ c.suite ++ ascii "/" ++ c.name ++ ascii ":\n" ++ issuesText c.issues ++
    ascii "\n"

def toText (r : Report) : Text := r.table.toText ++ r.totals ++ r.results.flatMap issuesOf

/-- Saves a report to a file. The file is made or emptied first. -/
def save (r : Report) (tree : FileTree) (path : Text) : FileTree × Option Error :=
  match tree.create path with
  | .error e => (tree, some (e.toError.during "create report file"))
  | .ok (location, tree) =>
    match tree.append location path r.toText with
    | .ok tree => (tree, none)
    | .error e => (tree, some (e.toError.during "write report file"))

end Report

end HackStack
