import HackStack.Generator
import HackStack.Proofs.Machine.Straight

/-!
# Commands as steps on the data memory

The reference machine knows nothing of instructions. A command is one step on the data memory, with the stack
pointer in the first cell and all arithmetic modulo 2^16. `Fits` says which cells a command may use: they exist,
and no stack cell is the stack pointer's own cell or the scratch register.
-/

namespace HackStack

/-! ## Operators -/

def truthWord (b : Bool) : UInt16 := if b then -1 else 0

/-- What an operator computes, on the top of the stack or on the two topmost values. -/
inductive Meaning where
  | unary (f : UInt16 → UInt16)
  | binary (f : UInt16 → UInt16 → UInt16)

/-- The meaning of an operator. Comparisons look at the sign of the difference, taken modulo 2^16. -/
def Operator.meaning : Operator → Meaning
  | .add => .binary (· + ·)
  | .sub => .binary (· - ·)
  | .neg => .unary (- ·)
  | .eq => .binary fun x y => truthWord (signedWord (x - y) = 0)
  | .gt => .binary fun x y => truthWord (0 < signedWord (x - y))
  | .lt => .binary fun x y => truthWord (signedWord (x - y) < 0)
  | .and => .binary (· &&& ·)
  | .or => .binary (· ||| ·)
  | .not => .unary (~~~ ·)

namespace Reference

/-! ## Steps -/

/-- The address of a segment entry in a file whose static cells begin at slot `first`. Constants have none. -/
def address? (first : Nat) (ram : Memory) (index : Nat) : Segment → Option UInt16
  | .constant => none
  | .locals => some (ram.read 1 + index.toUInt16)
  | .arguments => some (ram.read 2 + index.toUInt16)
  | .this => some (ram.read 3 + index.toUInt16)
  | .that => some (ram.read 4 + index.toUInt16)
  | .temp => some (5 + index.toUInt16)
  | .pointer => some (3 + index.toUInt16)
  | .statics => some (16 + (first + index)).toUInt16

def value (first : Nat) (ram : Memory) (index : Nat) (segment : Segment) : UInt16 :=
  match address? first ram index segment with
  | some address => ram.read address
  | none => index.toUInt16

def push (ram : Memory) (v : UInt16) : Memory := (ram.write (ram.read 0) v).write 0 (ram.read 0 + 1)

/-- Moves the top of the stack to an address, which is left in the scratch register. -/
def pop (ram : Memory) (address : UInt16) : Memory :=
  ((ram.write 13 address).write 0 (ram.read 0 - 1)).write address (ram.read (ram.read 0 - 1))

def operate (ram : Memory) : Meaning → Memory
  | .unary f => ram.write (ram.read 0 - 1) (f (ram.read (ram.read 0 - 1)))
  | .binary f =>
    (ram.write (ram.read 0 - 2) (f (ram.read (ram.read 0 - 2)) (ram.read (ram.read 0 - 1)))).write 0 (ram.read 0 - 1)

/-- One command. Flow and function commands do nothing. -/
def step (first : Nat) (ram : Memory) : Command → Memory
  | .arithmetic word =>
    match Operator.ofName? word with
    | some op => operate ram op.meaning
    | none => ram
  | .push name index =>
    match Segment.ofName? name with
    | some segment => push ram (value first ram index.toNat segment)
    | none => ram
  | .pop name index =>
    match (Segment.ofName? name).bind (address? first ram index.toNat) with
    | some address => pop ram address
    | none => ram
  | _ => ram

abbrev Located := Nat × Command

def run : List Located → Memory → Memory
  | [], ram => ram
  | c :: rest, ram => run rest (step c.1 ram c.2)

/-- Whether a command has a meaning: its operator exists, or its segment has an entry with its index. -/
def Valid : Command → Prop
  | .arithmetic word => ∃ op : Operator, word = op.name
  | .push name index => ∃ (segment : Segment) (i : Nat), name = segment.name ∧ index = i ∧ i < segment.size
  | .pop name index =>
    ∃ (segment : Segment) (i : Nat), name = segment.name ∧ index = i ∧ i < segment.size ∧ segment ≠ .constant
  | _ => True

/-! ## Cells -/

def stackCells (sp : UInt16) : Command → List UInt16
  | .arithmetic word =>
    match (Operator.ofName? word).map Operator.meaning with
    | some (.unary _) => [sp - 1]
    | some (.binary _) => [sp - 2, sp - 1]
    | none => []
  | .push _ _ => [sp]
  | .pop _ _ => [sp - 1]
  | _ => []

def segmentCell? (first : Nat) (ram : Memory) : Command → Option UInt16
  | .push name index | .pop name index => (Segment.ofName? name).bind (address? first ram index.toNat)
  | _ => none

/-- Whether the stack cells of a command are apart from the stack pointer and the scratch register. -/
def Clear (ram : Memory) (c : Command) : Prop := ∀ cell ∈ stackCells (ram.read 0) c, cell ≠ 0 ∧ cell ≠ 13

def Inside (first : Nat) (ram : Memory) (c : Command) : Prop :=
  (∀ cell ∈ stackCells (ram.read 0) c, cell.toNat < ram.size) ∧
    ∀ cell, segmentCell? first ram c = some cell → cell.toNat < ram.size

/-- Whether every command of a run finds its cells. -/
def Fits : List Located → Memory → Prop
  | [], _ => True
  | c :: rest, ram => Clear ram c.2 ∧ Inside c.1 ram c.2 ∧ Fits rest (step c.1 ram c.2)

instance (ram : Memory) (c : Command) : Decidable (Clear ram c) :=
  List.decidableBAll (fun cell => cell ≠ 0 ∧ cell ≠ 13) (stackCells (ram.read 0) c)

-- The cells are tried one by one: a search over all addresses would take too long.
instance (first : Nat) (ram : Memory) (c : Command) : Decidable (Inside first ram c) :=
  have : Decidable (∀ cell, segmentCell? first ram c = some cell → cell.toNat < ram.size) :=
    match segmentCell? first ram c with
    | none => .isTrue nofun
    | some cell => decidable_of_iff (cell.toNat < ram.size) (by simp)
  have := List.decidableBAll (fun cell => cell.toNat < ram.size) (stackCells (ram.read 0) c)
  instDecidableAnd

instance decidableFits : ∀ (cs : List Located) (ram : Memory), Decidable (Fits cs ram)
  | [], _ => .isTrue trivial
  | c :: rest, ram =>
    have := decidableFits rest (step c.1 ram c.2)
    inferInstanceAs (Decidable (Clear ram c.2 ∧ Inside c.1 ram c.2 ∧ Fits rest (step c.1 ram c.2)))

theorem size_step (first : Nat) (ram : Memory) (c : Command) : (step first ram c).size = ram.size := by
  have hop : ∀ f, (operate ram f).size = ram.size := by
    intro f
    cases f <;> simp [operate]
  cases c with
  | arithmetic word =>
    simp only [step]
    split
    · exact hop _
    · rfl
  | push name index =>
    simp only [step]
    split
    · simp [push]
    · rfl
  | pop name index =>
    simp only [step]
    split
    · simp [pop]
    · rfl
  | _ => rfl

section
variable {op : Operator}

theorem step_operator (first : Nat) (ram : Memory) :
    step first ram (.arithmetic op.name) = operate ram op.meaning := by
  simp only [step, Operator.ofName?_name]

theorem cells_unary {f : UInt16 → UInt16} (hm : op.meaning = .unary f) (sp : UInt16) :
    stackCells sp (.arithmetic op.name) = [sp - 1] := by
  simp [stackCells, Operator.ofName?_name, hm]

theorem cells_binary {f : UInt16 → UInt16 → UInt16} (hm : op.meaning = .binary f) (sp : UInt16) :
    stackCells sp (.arithmetic op.name) = [sp - 2, sp - 1] := by
  simp [stackCells, Operator.ofName?_name, hm]

end

end Reference

end HackStack
