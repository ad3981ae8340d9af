import HackStack.Simulation

/-!
# Conformance cases

A case pairs a source and a machine with what must come out: the stack, memory words, the number of
comparisons, or a kind of error. It passes if everything given agrees and the assembly has no lint issue.
-/

namespace HackStack

/-- What a case must produce. Only what is present is checked, and an error excludes the rest. -/
structure Expectation where
  stack : Option (List Int) := none
  ram : MemoryImage := ∅
  comparisons : Option Int := none
  error : Text := []

/-- A conformance case. A reason in `skip` keeps it from being run. -/
structure Case where
  name : Text := []
  description : Text := []
  skip : Text := []
  file : Text := []
  source : Text := []
  stackBase : Int := 0
  ram : MemoryImage := ∅
  maxSteps : Int := 0
  staticSymbols : Bool := false
  expect : Expectation := {}

structure Suite where
  name : Text := []
  description : Text := []
  cases : List Case := []
  file : Text := []

structure CaseResult where
  suite : Text := []
  name : Text
  passed : Bool := false
  skipped : Bool := false
  reason : Text := []
  issues : List Issue := []
  steps : Nat := 0
  deriving DecidableEq, Repr

inductive ErrorKind where
  | malformed
  | unknown
  | segment
  | badAddress
  | stepLimit
  deriving DecidableEq, Repr

namespace ErrorKind

def all : List ErrorKind := [malformed, unknown, segment, badAddress, stepLimit]

def name : ErrorKind → Text
  | malformed => ascii "malformed"
  | unknown => ascii "unknown"
  | segment => ascii "segment"
  | badAddress => ascii "bad_address"
  | stepLimit => ascii "step_limit"

def ofName? (t : Text) : Option ErrorKind := all.find? fun k => k.name == t

def ofCause? : Cause → Option ErrorKind
  | .undecodable e => some (if e.isUnknown then unknown else malformed)
  | .rejected r => if r.isOperator then none else some segment
  | .trapped _ | .badAddress => some badAddress
  | .stepLimit => some stepLimit
  | _ => none

end ErrorKind

namespace Case

def setup (c : Case) : Setup :=
  { fileName := c.file, stackBase := c.stackBase, ram := c.ram, maxSteps := c.maxSteps,
    staticSymbols := c.staticSymbols }

def listText (values : List Int) : Text := ascii "[" ++ Text.join [32] (values.map Text.signed) ++ ascii "]"

def stackMismatch (want : Expectation) (stack : List Int) : List Text :=
  match want.stack with
  | none => []
  | some values =>
    if values = stack then []
    else [ascii "stack " ++ listText stack ++ ascii ", want " ++ listText values]

def memoryMismatch (m : Machine) : List (Int × Int) → Option (List Text)
  | [] => some []
  | (address, value) :: rest => do
    let found ← m.peek? address
    let others ← memoryMismatch m rest
    if found = value then return others
    else return (ascii "RAM[" ++ Text.signed address ++ ascii "] = " ++ Text.signed found ++ ascii ", want " ++
      Text.signed value) :: others

def comparisonMismatch (want : Expectation) (comparisons : Nat) : List Text :=
  match want.comparisons with
  | none => []
  | some n =>
    if (comparisons : Int) = n then []
    else [ascii "jump count " ++ Text.decimal comparisons ++ ascii ", want " ++ Text.signed n]

def errorMismatch (want : Text) : Option Error → Text
  | none => ascii "expected " ++ want ++ ascii " error, got none"
  | some e =>
    if (ErrorKind.ofName? want).isSome && ErrorKind.ofCause? e.cause == ErrorKind.ofName? want then []
    else ascii "expected " ++ want ++ ascii " error, got " ++ e.message

/-- What is wrong with a finished run, nothing being the empty text. It is `none` if an expected address does
not exist. -/
def complaint? (want : Expectation) (s : Simulation) (stack : List Int) : Option Text :=
  if !want.error.isEmpty then some (errorMismatch want.error s.error)
  else match s.error with
    | some e => some (ascii "unexpected error: " ++ e.message)
    | none => (memoryMismatch s.machine want.ram.toList).map fun memory =>
      Text.join (ascii "; ") (stackMismatch want stack ++ memory ++ comparisonMismatch want s.comparisons)

def verdict (c : Case) (complaint : Text) (issues : List Issue) (steps : Nat) : CaseResult :=
  let result : CaseResult := { name := c.name, issues := issues, steps := steps }
  if !complaint.isEmpty then { result with reason := complaint }
  else match issues with
    | [] => { result with passed := true }
    | first :: _ =>
      { result with reason := Text.decimal issues.length ++ ascii " lint issues: " ++ first.toText }

/-- The result of a case that is run, `none` if the run goes on for ever or a look-up leaves the memory. -/
def resultOf? (c : Case) : Except Error Simulation → Option CaseResult
  | .error e =>
    some (c.verdict
      (if c.expect.error.isEmpty then ascii "unexpected error: " ++ e.message
        else errorMismatch c.expect.error (some e)) [] 0)
  | .ok s =>
    if s.ended then do
      let stack ← s.stack
      let complaint ← complaint? c.expect s stack
      return c.verdict complaint (lint s.assembly) s.machine.steps
    else none

def finished (r : CaseResult) : LogRecord :=
  .of .debug "case finished" [("Case", .text r.name), ("Passed", .bool r.passed), ("Reason", .text r.reason)]

/-- Runs a case. There is no result if the run goes on for ever or a look-up leaves the memory. -/
def run (c : Case) : Array LogRecord × Option CaseResult :=
  if !c.skip.isEmpty then (#[], some { name := c.name, skipped := true, reason := c.skip })
  else
    match simulate c.source c.setup with
    | (log, outcome) =>
      match c.resultOf? outcome with
      | none => (log, none)
      | some r => (log.push (finished r), some r)

/-- Whether a case comes to an end, with a result or without. -/
def ends (c : Case) : Bool :=
  !c.skip.isEmpty ||
    match (simulate c.source c.setup).2 with
    | .error _ => true
    | .ok s => s.ended

end Case

namespace Suite

/-- Runs cases in order, up to the first without a result. The results before are `done`, in reverse. -/
def runCases (suite : Text) (log : Array LogRecord) (done : List CaseResult) :
    List Case → Array LogRecord × Option (List CaseResult)
  | [] => (log, some done.reverse)
  | c :: rest =>
    match c.run with
    | (records, none) => (log ++ records, none)
    | (records, some r) => runCases suite (log ++ records) ({ r with suite := suite } :: done) rest

def run (s : Suite) : Array LogRecord × Option (List CaseResult) := runCases s.name #[] [] s.cases

end Suite

end HackStack
