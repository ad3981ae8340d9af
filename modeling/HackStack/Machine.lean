import HackStack.Asm.Program

/-!
# The Hack computer

A machine has three registers of 16 bits, a data memory and a program memory. A step executes the word at the
program counter. It either succeeds and counts, or traps because the word touches memory that does not exist,
and then nothing has changed. A program has halted when the program counter is past its last word.
-/

namespace HackStack

def signedWord (w : UInt16) : Int := if w < 0x8000 then (w.toNat : Int) else (w.toNat : Int) - 65536

def wordOfInt (i : Int) : UInt16 := UInt16.ofInt i

/-- The state of a computer. `lines` holds the source line of each word of the program, as far as known. -/
structure Machine where
  a : UInt16 := 0
  d : UInt16 := 0
  pc : UInt16 := 0
  ram : Array UInt16
  rom : Array UInt16 := #[]
  lines : Array Int := #[]
  steps : Nat := 0
  deriving DecidableEq, Repr

inductive Access where
  | read
  | write
  deriving DecidableEq, Repr

/-- An access to memory that does not exist, with the place of the instruction. -/
structure Trap where
  pc : UInt16
  line : Int
  access : Access
  address : UInt16
  deriving DecidableEq, Repr

def Trap.message (t : Trap) : Text :=
  ascii "pc " ++ Text.decimal t.pc.toNat ++
    (if 0 < t.line then ascii ", asm line " ++ Text.signed t.line else []) ++
    (match t.access with
      | .read => ascii ": read M["
      | .write => ascii ": write M[") ++
    Text.decimal t.address.toNat ++ ascii "]: memory access out of range"

namespace Machine

/-- The number of words that covers the data memory, the screen map and the keyboard. -/
def defaultRamSize : Nat := 24577

/-- A machine with `size` zeroed words of data memory, or the default number if `size` is not positive. -/
def new (size : Int) : Machine :=
  { ram := Array.replicate (if size ≤ 0 then defaultRamSize else size.toNat) 0 }

/-- Places words in the program memory and resets the registers and the count. The data memory stays. -/
def loadWords (m : Machine) (words : Array UInt16) (lines : Array Int) : Machine :=
  { m with a := 0, d := 0, pc := 0, steps := 0, rom := words, lines := lines }

def load (m : Machine) (p : Asm.Program) : Machine := m.loadWords p.words (p.lines.map Int.ofNat)

def halted (m : Machine) : Bool := m.rom.size ≤ m.pc.toNat

def lineAt (m : Machine) (pc : UInt16) : Int := m.lines.getD pc.toNat 0

/-! ## Data memory -/

def peek? (m : Machine) (address : Int) : Option Int :=
  if 0 ≤ address then (m.ram[address.toNat]?).map signedWord else none

def poke? (m : Machine) (address value : Int) : Option Machine :=
  if 0 ≤ address ∧ address.toNat < m.ram.size then
    some { m with ram := m.ram.setIfInBounds address.toNat (wordOfInt value) }
  else none

def stackPointer (m : Machine) : Nat := (m.ram.getD 0 0).toNat

/-- The values from `base` up to the stack pointer. The list is empty if the pointer is at or below the base
or past the memory; there is none if it would begin before the memory. -/
def stack? (m : Machine) (base : Int) : Option (List Int) :=
  if (m.stackPointer : Int) ≤ base ∨ m.ram.size < m.stackPointer then some []
  else if base < 0 then none
  else some ((m.ram.extract base.toNat m.stackPointer).toList.map signedWord)

/-! ## Execution -/

/-- The arithmetic unit. Its control bits, from the highest, clear and invert `x`, clear and invert `y`, select
the sum instead of the conjunction, and invert the result. -/
def alu (x y control : UInt16) : UInt16 :=
  let x := if control &&& 32 ≠ 0 then 0 else x
  let x := if control &&& 16 ≠ 0 then ~~~x else x
  let y := if control &&& 8 ≠ 0 then 0 else y
  let y := if control &&& 4 ≠ 0 then ~~~y else y
  let out := if control &&& 2 ≠ 0 then x + y else x &&& y
  if control &&& 1 ≠ 0 then ~~~out else out

/-- Whether the three jump bits select the sign of a value: negative, zero, positive. -/
def jumps (out bits : UInt16) : Bool :=
  if 0x8000 ≤ out then bits &&& 4 ≠ 0
  else if out = 0 then bits &&& 2 ≠ 0
  else bits &&& 1 ≠ 0

/-- Whether a word computes. The others load the address register. -/
def computes (word : UInt16) : Bool := word &&& 0x8000 ≠ 0

def readsMemory (word : UInt16) : Bool := word &&& 0x1000 ≠ 0

def writesMemory (word : UInt16) : Bool := word &&& 8 ≠ 0

/-- The access of a word that the memory of a machine cannot serve. A read comes before a write. -/
def badAccess? (m : Machine) (word : UInt16) : Option Access :=
  if computes word && m.ram.size ≤ m.a.toNat then
    if readsMemory word then some .read
    else if writesMemory word then some .write
    else none
  else none

/-- Executes a word that the memory can serve. All destinations get the same value, and the memory word is the
one that the address register pointed to before. -/
def execute (m : Machine) (word : UInt16) : Machine :=
  if computes word then
    let address := m.a
    let y := if readsMemory word then m.ram.getD address.toNat 0 else address
    let out := alu m.d y ((word >>> 6) &&& 0x3F)
    { m with
      a := if word &&& 32 ≠ 0 then out else address
      d := if word &&& 16 ≠ 0 then out else m.d
      ram := if writesMemory word then m.ram.setIfInBounds address.toNat out else m.ram
      pc := if jumps out (word &&& 7) then address else m.pc + 1
      steps := m.steps + 1 }
  else { m with a := word, pc := m.pc + 1, steps := m.steps + 1 }

def word (m : Machine) : UInt16 := m.rom.getD m.pc.toNat 0

def trap? (m : Machine) : Option Trap :=
  (m.badAccess? m.word).map fun access => ⟨m.pc, m.lineAt m.pc, access, m.a⟩

/-- One step. A halted machine stays as it is, and so does one that traps. -/
def step (m : Machine) : Machine × Option Trap :=
  if m.halted then (m, none)
  else match m.trap? with
    | some t => (m, some t)
    | none => (m.execute m.word, none)

/-! ## Runs -/

inductive Outcome where
  | halted
  | stepLimit
  | trapped (t : Trap)
  | unfinished
  deriving DecidableEq, Repr

/-- A bound on the number of steps. Zero and negative numbers stand for no bound. -/
def limitOf (maxSteps : Int) : Option Nat := if 0 < maxSteps then some maxSteps.toNat else none

def reached (limit : Option Nat) (m : Machine) : Bool :=
  match limit with
  | some n => n ≤ m.steps
  | none => false

/-- Runs until the program halts, traps or reaches the limit, for `fuel` steps at most. -/
def runFor (limit : Option Nat) : Nat → Machine → Machine × Outcome
  | 0, m => (m, .unfinished)
  | fuel + 1, m =>
    if m.halted then (m, .halted)
    else if m.reached limit then (m, .stepLimit)
    else match m.trap? with
      | some t => (m, .trapped t)
      | none => runFor limit fuel (m.execute m.word)

/-- The number of states of a machine under its program: of values for the three registers and the words of memory. A
run that takes as many steps has come back to a state that it was in before. -/
def stateCount (m : Machine) : Nat := Nat.pow 65536 (m.ram.size + 3)

/-- Runs a machine. The fuel covers every step that the limit allows, and without a limit it covers every run that
ends. So only a run that goes on for ever is unfinished. -/
def run (limit : Option Nat) (m : Machine) : Machine × Outcome :=
  runFor limit (match limit with
    | some n => n - m.steps + 1
    | none => m.stateCount) m

end Machine

end HackStack
