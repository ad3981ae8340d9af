import HackStack.Machine
import HackStack.Table

/-!
# Showing a machine

The state of a machine is shown in three tables: the registers with the segment pointers, the temporary and
scratch registers, and the stack. Each table needs the memory that it shows.
-/

namespace HackStack.Machine

def words? (m : Machine) (first count : Nat) : Option (List Int) :=
  if first + count ≤ m.ram.size then some ((m.ram.extract first (first + count)).toList.map signedWord) else none

def registerTable? (m : Machine) : Option Table :=
  (m.words? 0 5).map fun pointers =>
    { title := ascii "CPU after " ++ Text.decimal m.steps ++ ascii " steps"
      header := [ascii "A", ascii "D", ascii "PC", ascii "SP", ascii "LCL", ascii "ARG", ascii "THIS", ascii "THAT"]
      rows := [(signedWord m.a :: signedWord m.d :: (m.pc.toNat : Int) :: pointers).map .number] }

def scratchTable? (m : Machine) : Option Table :=
  (m.words? 5 11).map fun values =>
    { title := ascii "Temp (R5-R12) and scratch (R13-R15)"
      header := (List.range 11).map fun i => ascii "R" ++ Text.decimal (5 + i)
      rows := [values.map .number] }

def stackTable? (m : Machine) (base : Int) : Option Table :=
  (m.stack? base).map fun values =>
    { title := ascii "Stack"
      header := [ascii "Addr", ascii "Value"]
      rows :=
        if values.isEmpty then [[.text (ascii "-"), .text (ascii "empty")]]
        else values.zipIdx.map fun (v, i) => [.number (base + i), .number v] }

/-- The tables of a state one after the other, and whether the memory held all of them. The first that it
does not hold ends the text. -/
def stateText (m : Machine) (base : Int) : Text × Bool :=
  match m.registerTable?, m.scratchTable?, m.stackTable? base with
  | none, _, _ => ([], false)
  | some registers, none, _ => (registers.toText, false)
  | some registers, some scratch, none => (registers.toText ++ scratch.toText, false)
  | some registers, some scratch, some stack => (registers.toText ++ scratch.toText ++ stack.toText, true)

end HackStack.Machine
