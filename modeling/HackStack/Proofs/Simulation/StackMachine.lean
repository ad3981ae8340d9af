import HackStack.Segment
import Mathlib.Logic.Function.Basic

/-!
# The stack machine

The machine that commands are written for. Its stack is a list, the temp, pointer and static segments have cells of
their own, and the other segments are windows on a memory. A run fails only by taking a value off an empty stack.
-/

namespace HackStack

/-- The state of a stack machine, with the top of the stack first. The bases of the local and argument segments are
in the memory at 1 and 2, those of this and that in the pointer cells. -/
structure StackMachine where
  stack : List Int16 := []
  temp : Fin 8 → Int16
  pointer : Fin 2 → Int16
  statics : Fin 240 → Int16
  memory : UInt16 → Int16

namespace StackMachine

/-! ## Operators -/

def truth (b : Bool) : Int16 := if b then -1 else 0

/-- What an operator makes of a stack, if it finds its operands. Comparisons look at the sign of the difference. -/
def operate : Operator → List Int16 → Option (List Int16)
  | .add, y :: x :: rest => some ((x + y) :: rest)
  | .sub, y :: x :: rest => some ((x - y) :: rest)
  | .and, y :: x :: rest => some ((x &&& y) :: rest)
  | .or, y :: x :: rest => some ((x ||| y) :: rest)
  | .eq, y :: x :: rest => some (truth (x - y = 0) :: rest)
  | .gt, y :: x :: rest => some (truth (0 < x - y) :: rest)
  | .lt, y :: x :: rest => some (truth (x - y < 0) :: rest)
  | .neg, y :: rest => some (-y :: rest)
  | .not, y :: rest => some (~~~y :: rest)
  | _, _ => none

/-! ## Segments -/

def address? (s : StackMachine) (index : Nat) : Segment → Option UInt16
  | .locals => some ((s.memory 1).toUInt16 + index.toUInt16)
  | .arguments => some ((s.memory 2).toUInt16 + index.toUInt16)
  | .this => some ((s.pointer 0).toUInt16 + index.toUInt16)
  | .that => some ((s.pointer 1).toUInt16 + index.toUInt16)
  | _ => none

def value (s : StackMachine) (index : Nat) (segment : Segment) : Int16 :=
  match s.address? index segment, segment with
  | some address, _ => s.memory address
  | none, .temp => s.temp (Fin.ofNat 8 index)
  | none, .pointer => s.pointer (Fin.ofNat 2 index)
  | none, .statics => s.statics (Fin.ofNat 240 index)
  | none, _ => Int16.ofNat index

def store (s : StackMachine) (index : Nat) (v : Int16) (segment : Segment) : StackMachine :=
  match s.address? index segment, segment with
  | some address, _ => { s with memory := Function.update s.memory address v }
  | none, .temp => { s with temp := Function.update s.temp (Fin.ofNat 8 index) v }
  | none, .pointer => { s with pointer := Function.update s.pointer (Fin.ofNat 2 index) v }
  | none, .statics => { s with statics := Function.update s.statics (Fin.ofNat 240 index) v }
  | none, _ => s

/-! ## Runs -/

/-- One command, unless it takes a value off an empty stack. Flow and function commands do nothing. -/
def step (s : StackMachine) : Command → Option StackMachine
  | .arithmetic word =>
    match Operator.ofName? word with
    | some op => (operate op s.stack).map fun stack => { s with stack := stack }
    | none => some s
  | .push name index =>
    match Segment.ofName? name with
    | some segment => some { s with stack := s.value index.toNat segment :: s.stack }
    | none => some s
  | .pop name index =>
    match Segment.ofName? name, s.stack with
    | some _, [] => none
    | some segment, v :: rest => some ({ s with stack := rest }.store index.toNat v segment)
    | none, _ => some s
  | _ => some s

def accessed? (s : StackMachine) : Command → Option UInt16
  | .push name index | .pop name index => (Segment.ofName? name).bind (s.address? index.toNat)
  | _ => none

def run (s : StackMachine) : List Command → Option StackMachine
  | [] => some s
  | c :: rest => (s.step c).bind (run · rest)

/-- The greatest depth of the stack in a run. -/
def deepest (s : StackMachine) : List Command → Nat
  | [] => s.stack.length
  | c :: rest => max s.stack.length (((s.step c).map (deepest · rest)).getD 0)

/-- The memory addresses that a run uses through windows. -/
def accesses (s : StackMachine) : List Command → List UInt16
  | [] => []
  | c :: rest => (s.accessed? c).toList ++ ((s.step c).map (accesses · rest)).getD []

/-- The number at an address, where the cells of the segments have the places that the program gives them. -/
def cell (s : StackMachine) (a : UInt16) : Int16 :=
  if 3 ≤ a.toNat ∧ a.toNat < 5 then s.pointer (Fin.ofNat 2 (a.toNat - 3))
  else if 5 ≤ a.toNat ∧ a.toNat < 13 then s.temp (Fin.ofNat 8 (a.toNat - 5))
  else if 16 ≤ a.toNat ∧ a.toNat < 256 then s.statics (Fin.ofNat 240 (a.toNat - 16))
  else s.memory a

def ofCells (number : UInt16 → Int16) : StackMachine where
  temp i := number (5 + i.val.toUInt16)
  pointer i := number (3 + i.val.toUInt16)
  statics i := number (16 + i.val.toUInt16)
  memory := number

end StackMachine

end HackStack
