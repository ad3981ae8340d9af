/-!
# Operands

Sources of stack operands for tests: numbers that count up and wrap around, a list repeated without end, and
numbers drawn from a range. A source is a value, so the same source gives the same operands every time.
-/

namespace HackStack

inductive OperandError where
  | emptyCycle
  | emptyRange
  deriving DecidableEq, Repr

def OperandError.message : OperandError → String
  | emptyCycle => "cycle generator needs at least one value"
  | emptyRange => "random generator needs lo <= hi"

/-- A source of operands. The counter holds its last operand, the cycle its next one and those after it, and
the random source its state and range. -/
inductive Operands where
  | counter (last : Int16)
  | cycle (next : Int16) (later : List Int16)
  | random (state : UInt64) (lo hi : Int16) (lo_le_hi : lo.toInt ≤ hi.toInt)

namespace Operands

def ofCycle : List Int16 → Except OperandError Operands
  | [] => .error .emptyCycle
  | v :: vs => .ok (.cycle v vs)

def ofRange (seed : UInt64) (lo hi : Int16) : Except OperandError Operands :=
  if h : lo.toInt ≤ hi.toInt then .ok (.random seed lo hi h) else .error .emptyRange

/-- The state of a random source after another one: a linear congruence modulo 2^64. -/
def advance (state : UInt64) : UInt64 := state * 6364136223846793005 + 1442695040888963407

def inRange (state : UInt64) (lo hi : Int16) : Int16 :=
  Int16.ofInt (lo.toInt + ((state >>> 33).toNat % (hi.toInt - lo.toInt + 1).toNat : Nat))

def next : Operands → Int16 × Operands
  | counter last => (last + 1, counter (last + 1))
  | cycle v [] => (v, cycle v [])
  | cycle v (w :: rest) => (v, cycle w (rest ++ [v]))
  | random state lo hi h => (inRange (advance state) lo hi, random (advance state) lo hi h)

def takeOnto (done : List Int16) : Nat → Operands → List Int16
  | 0, _ => done.reverse
  | n + 1, g => takeOnto (g.next.1 :: done) n g.next.2

def take? (g : Operands) (count : Int) : Option (List Int16) :=
  if count < 0 then none else some (takeOnto [] count.toNat g)

end Operands

end HackStack
