import HackStack.Log
import HackStack.Machine

/-!
# A clocked computer

A core runs a machine one instruction per clock cycle. Mapping a program asks for a tick at the current time,
and a tick that executed an instruction asks for the next one a cycle later. A tick is granted only if the
last one asked for was earlier, and running the core handles granted ticks until none is left.
-/

namespace HackStack

inductive CoreFault where
  | stepLimit
  | trapped (t : Trap)
  deriving DecidableEq, Repr

def CoreFault.message : CoreFault → Text
  | stepLimit => ascii "step limit reached"
  | trapped t => t.message

/-- A machine under a clock. `asked` is the time of the last tick asked for, and `pending` says whether it is
still to come. -/
structure Core where
  machine : Machine
  limit : Option Nat := none
  fault : Option CoreFault := none
  time : Nat := 0
  asked : Option Nat := none
  pending : Bool := false
  log : Array LogRecord := #[]

namespace Core

def name : Text := ascii "Hack"

/-- The least data memory of a core: the stack pointer and the four segment pointers. -/
def minRamSize : Nat := 5

def ramTooSmall : Text := ascii "RAM must hold at least the SP, LCL, ARG, THIS and THAT registers"

def new? (ramSize : Int) (limit : Option Nat) : Option Core :=
  if ramSize < minRamSize then none else some { machine := Machine.new ramSize, limit := limit }

def report (c : Core) (r : LogRecord) : Core := { c with log := c.log.push r }

/-- Asks for a tick at a time, which is granted if the last one asked for was earlier. -/
def ask (c : Core) (time : Nat) : Core :=
  if c.asked.all (· < time) then { c with asked := some time, pending := true } else c

/-- Loads a program and asks for its first tick. The data memory stays. -/
def map (c : Core) (p : Asm.Program) : Core :=
  let c := { c with machine := c.machine.load p, fault := none }
  let c := c.report (.of .trace "Core"
    [("Behavior", .text (ascii "MapProgram")), ("Name", .text name), ("Words", .int p.words.size)])
  if c.machine.halted then c else c.ask c.time

def checkpoint (m : Machine) : LogRecord :=
  .of .debug "StateCheckpoint"
    [("A", .int m.a.toNat), ("D", .int m.d.toNat), ("PC", .int m.pc.toNat), ("Steps", .int m.steps),
      ("SP", .int (signedWord (m.ram.getD 0 0))), ("LCL", .int (signedWord (m.ram.getD 1 0))),
      ("ARG", .int (signedWord (m.ram.getD 2 0))), ("THIS", .int (signedWord (m.ram.getD 3 0))),
      ("THAT", .int (signedWord (m.ram.getD 4 0)))]

def stop (c : Core) (fault : CoreFault) : Core :=
  { c with fault := some fault }.report (match fault with
    | .stepLimit => .of .warn "core stopped"
      [("Name", .text name), ("Steps", .int c.machine.steps), ("PC", .int c.machine.pc.toNat)]
    | .trapped t => .of .error "core fault" [("Name", .text name), ("Error", .text t.message)])

def reportHalt (c : Core) : Core :=
  if c.machine.halted then
    (c.report (.of .trace "Core"
      [("Behavior", .text (ascii "Halt")), ("Name", .text name), ("Steps", .int c.machine.steps)])).report
      (checkpoint c.machine)
  else c

/-- One clock tick, which says whether it executed an instruction. -/
def tick (c : Core) : Core × Bool :=
  if c.fault.isSome || c.machine.halted then (c, false)
  else if c.machine.reached c.limit then (c.stop .stepLimit, false)
  else match c.machine.trap? with
    | some t => (c.stop (.trapped t), false)
    | none => ({ c with machine := c.machine.execute c.machine.word }.reportHalt, true)

def handle (c : Core) : Core :=
  match { c with pending := false, time := c.asked.getD c.time }.tick with
  | (c, true) => c.ask (c.time + 1)
  | (c, false) => c

def runFor : Nat → Core → Core
  | 0, c => c
  | fuel + 1, c => if c.pending then runFor fuel c.handle else c

/-- Runs the core until no tick is pending. The fuel covers every step that the limit allows, the tick that
finds the limit reached and the one that finds the program halted. Without a limit it covers every run that ends, so a
tick is left only if the core runs for ever. -/
def run (c : Core) : Core :=
  runFor (match c.limit with
    | some n => n - c.machine.steps + 2
    | none => c.machine.stateCount) c

end Core

end HackStack
