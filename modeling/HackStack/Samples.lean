import HackStack.Machine.State
import HackStack.Simulation

/-!
# Sample programs

Three small programs that exercise addition, the comparisons with the logical operators, and the memory
segments. Each shows the state it ends in, and passes if that is the expected one.
-/

namespace HackStack

inductive Sample where
  | simpleAdd
  | stackTest
  | basicTest
  deriving DecidableEq, Repr

namespace Sample

def all : List Sample := [simpleAdd, stackTest, basicTest]

def name : Sample → Text
  | simpleAdd => ascii "simpleadd"
  | stackTest => ascii "stacktest"
  | basicTest => ascii "basictest"

def ofName? (t : Text) : Option Sample := all.find? fun s => s.name == t

def fileName : Sample → Text
  | simpleAdd => ascii "SimpleAdd.vm"
  | stackTest => ascii "StackTest.vm"
  | basicTest => ascii "BasicTest.vm"

def commands : Sample → List String
  | simpleAdd => ["push constant 7", "push constant 8", "add"]
  | stackTest =>
    ["push constant 17", "push constant 17", "eq", "push constant 17", "push constant 16", "eq",
      "push constant 16", "push constant 17", "eq", "push constant 892", "push constant 891", "lt",
      "push constant 891", "push constant 892", "lt", "push constant 891", "push constant 891", "lt",
      "push constant 32767", "push constant 32766", "gt", "push constant 32766", "push constant 32767", "gt",
      "push constant 32766", "push constant 32766", "gt", "push constant 57", "push constant 31",
      "push constant 53", "add", "push constant 112", "sub", "neg", "and", "push constant 82", "or", "not"]
  | basicTest =>
    ["push constant 10", "pop local 0", "push constant 21", "push constant 22", "pop argument 2",
      "pop argument 1", "push constant 36", "pop this 6", "push constant 42", "push constant 45", "pop that 5",
      "pop that 2", "push constant 510", "pop temp 6", "push local 0", "push that 5", "add", "push argument 1",
      "sub", "push this 6", "push this 6", "add", "sub", "push temp 6", "add"]

def source (s : Sample) : Text := s.commands.flatMap fun c => ascii c ++ [Text.lineFeed]

def stackBase : Int := 256

def build? (s : Sample) (annotate : Bool) : Option (Translator MemorySink × Asm.Program) :=
  match (Translator.new annotate false ({} : MemorySink)).file s.fileName (.ok s.source) with
  | (_, some _) => none
  | (t, none) => (Asm.assemble t.sink.text).toOption.map fun program => (t, program)

def runCore? (program : Asm.Program) (limit : Option Nat) : Option Core := do
  let core ← Core.new? Machine.defaultRamSize limit
  let machine ← core.machine.poke? 0 stackBase
  let core := ({ core with machine := machine }.map program).run
  guard !core.pending
  return core

/-- What a sample prints, and whether it passes: a run of one instruction per nanosecond. -/
def timed? (s : Sample) : Option (Text × Bool) := do
  let (_, program) ← s.build? false
  let core ← runCore? program none
  let timing := Text.decimal program.words.size ++ ascii " instructions, " ++ Text.decimal core.machine.steps ++
    ascii " cycles, " ++ Text.decimal core.time ++ ascii " ns\n"
  return ((core.machine.stateText stackBase).1 ++ timing,
    core.machine.peek? 0 == some 257 && core.machine.peek? 256 == some 15)

def compared? (s : Sample) (expected : List Int) : Option (Text × Bool) := do
  let (t, program) ← s.build? true
  let issues := lint t.sink.text
  if !issues.isEmpty then return (issuesText issues ++ ascii "\n", false)
  let core ← runCore? program (some 10000)
  match core.fault with
  | some fault => return (fault.message ++ ascii "\n", false)
  | none =>
    let count := Text.decimal t.generator.comparisons ++ ascii " comparisons translated\n"
    return ((core.machine.stateText stackBase).1 ++ count, core.machine.stack? stackBase == some expected)

def simulated? (s : Sample) (initial expected : List (Int × Int)) : Option (Text × Bool) :=
  let ram : MemoryImage := initial.foldl (fun m (address, value) => m.insert address value) ∅
  match (simulate s.source { fileName := s.fileName, ram := ram }).2 with
  | .error e => some (e.message ++ ascii "\n", false)
  | .ok result =>
    some ((result.machine.stateText stackBase).1,
      expected.all fun (address, value) => result.machine.peek? address == some value)

def result? : Sample → Option (Text × Bool)
  | simpleAdd => simpleAdd.timed?
  | stackTest => stackTest.compared? [-1, 0, 0, 0, -1, 0, -1, 0, 0, -91]
  | basicTest =>
    basicTest.simulated? [(1, 300), (2, 400), (3, 3000), (4, 3010)]
      [(256, 472), (300, 10), (401, 21), (402, 22), (3006, 36), (3012, 42), (3015, 45), (11, 510)]

def verdict (passed : Bool) : Text := if passed then ascii "PASS\n" else ascii "FAIL\n"

def run (s : Sample) : Text × Bool :=
  match s.result? with
  | some (text, passed) => (text ++ verdict passed, passed)
  | none => (verdict false, false)

end Sample

end HackStack
