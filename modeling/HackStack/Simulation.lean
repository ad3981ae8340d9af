import HackStack.Lint
import HackStack.Translation

/-!
# Simulating a source

A source is translated by a fresh translator, assembled, and run on a prepared machine.
-/

namespace HackStack

abbrev MemoryImage := Std.TreeMap Int Int

/-- The machine and the options that a program starts with. A zero or an empty name stands for the default. -/
structure Setup where
  fileName : Text := []
  stackBase : Int := 0
  ram : MemoryImage := ∅
  maxSteps : Int := 0
  ramSize : Int := 0
  staticSymbols : Bool := false
  annotate : Bool := false

namespace Setup

def defaultStackBase : Int := 256

def defaultMaxSteps : Int := 100000

def withDefaults (s : Setup) : Setup :=
  { s with
    fileName := if s.fileName.isEmpty then ascii "Main.vm" else s.fileName
    stackBase := if s.stackBase = 0 then defaultStackBase else s.stackBase
    maxSteps := if s.maxSteps = 0 then defaultMaxSteps else s.maxSteps }

end Setup

/-- The end of a simulated run, if it has `ended`: one that goes on for ever gives nothing to see. The stack is missing
if it would begin before the memory. -/
structure Simulation where
  assembly : Text
  program : Asm.Program
  machine : Machine
  stack : Option (List Int)
  comparisons : Nat
  commands : Nat
  ended : Bool
  error : Option Error

namespace Simulation

def fill (m : Machine) : List (Int × Int) → Except Error Machine
  | [] => .ok m
  | (address, value) :: rest =>
    match m.poke? address value with
    | some m => fill m rest
    | none =>
      .error { context := [.task (ascii "initial RAM[" ++ Text.signed address ++ ascii "]")], cause := .badAddress }

/-- Prepares the memory: the stack pointer first, so that an entry for address 0 replaces it. -/
def prepare (m : Machine) (s : Setup) : Except Error Machine :=
  if (m.ram.size : Int) ≤ s.stackBase then
    .error { context := [.task (ascii "stack base " ++ Text.signed s.stackBase)], cause := .badAddress }
  else fill ((m.poke? 0 s.stackBase).getD m) s.ram.toList

def execute (s : Setup) (t : Translator MemorySink) (assembly : Text) (program : Asm.Program) (m : Machine) :
    Simulation :=
  match (m.load program).run (Machine.limitOf s.maxSteps) with
  | (m, outcome) =>
    { assembly := assembly
      program := program
      machine := m
      stack := m.stack? s.stackBase
      comparisons := t.generator.comparisons
      commands := t.commands
      ended := outcome != .unfinished
      error := outcome.error? m }

def ofTranslation (s : Setup) (t : Translator MemorySink) : Except Error Simulation :=
  match Asm.assemble t.sink.text with
  | .error e => .error { context := [.task (ascii "assemble translated program")], cause := .unassemblable e }
  | .ok program =>
    match prepare (Machine.new s.ramSize) s with
    | .error e => .error e
    | .ok m => .ok (execute s t t.sink.text program m)

end Simulation

/-- Simulates a source. Errors before the run leave no result; the records of the translation come with it. -/
def simulate (source : Text) (setup : Setup) : Array LogRecord × Except Error Simulation :=
  let setup := setup.withDefaults
  match (Translator.new setup.annotate setup.staticSymbols ({} : MemorySink)).file setup.fileName (.ok source) with
  | (t, some e) => (t.log, .error e)
  | (t, none) => (t.log, Simulation.ofTranslation setup t)

end HackStack
