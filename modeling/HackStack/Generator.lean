import HackStack.Asm.Line
import HackStack.Path
import HackStack.Segment

/-!
# Lowering commands to assembly

A generator lowers one command at a time. It numbers the label pairs of comparisons over a whole run, and it
gives every source file static cells of its own: slots after those of the files before, or named symbols.
-/

namespace HackStack

open Asm

/-- The state of a generator. The current file has claimed `staticUsed` slots from `staticFirst` on, and
`comparisons` numbers the next label pair. -/
structure Generator where
  annotate : Bool := false
  staticSymbols : Bool := false
  fileName : Text := []
  staticFirst : Nat := 0
  staticUsed : Nat := 0
  comparisons : Nat := 0
  deriving DecidableEq, Repr

/-- A command to lower. Words and kinds may be unknown and numbers out of range. -/
inductive Request where
  | operator (word : Text)
  | access (kind : Kind) (segment : Text) (index : Int)
  deriving DecidableEq, Repr

def Request.toText : Request → Text
  | operator word => word
  | access kind segment index => (Command.ofParts kind segment index).toText

/-! ## Templates -/

namespace Template

def stackPointer : Line := .instruction (.load (.symbol (ascii "SP")))

def scratch : Line := .instruction (.load (.symbol (ascii "R13")))

def assign (dest : List Register) (comp : Computation) : Line := .instruction (.compute dest comp none)

def jump (comp : Computation) (condition : Jump) : Line := .instruction (.compute [] comp (some condition))

def load (operand : Operand) : Line := .instruction (.load operand)

def popOperands : List Line :=
  [stackPointer, assign [.a, .m] (.decY .m), assign [.d] (.y .m), assign [.a] (.decY .a)]

def pointToTop : List Line := [stackPointer, assign [.a] (.decY .m)]

def pushData : List Line :=
  [stackPointer, assign [.a] (.y .m), assign [.m] .d, stackPointer, assign [.m] (.incY .m)]

def popToAddress : List Line :=
  [scratch, assign [.m] .d, stackPointer, assign [.a, .m] (.decY .m), assign [.d] (.y .m), scratch,
    assign [.a] (.y .m), assign [.m] .d]

def falseLabel (k : Nat) : Text := ascii "FALSE" ++ Text.decimal k

def continueLabel (k : Nat) : Text := ascii "CONTINUE" ++ Text.decimal k

def binary (comp : Computation) : List Line := popOperands ++ [assign [.m] comp]

/-- Compares the two topmost values by the sign of their difference; `ifNot` holds if the answer is no. -/
def compare (ifNot : Jump) (k : Nat) : List Line :=
  popOperands ++ [assign [.d] (.yMinusD .m), load (.symbol (falseLabel k)), jump .d ifNot] ++
    pointToTop ++ [assign [.m] .minusOne, load (.symbol (continueLabel k)), jump .zero .always,
      .label (falseLabel k)] ++
    pointToTop ++ [assign [.m] .zero, .label (continueLabel k)]

end Template

/-- The code of an operator, `k` being the number of its label pair if it needs one. -/
def Operator.code (k : Nat) : Operator → List Line
  | .add => Template.binary (.swappedDPlusY .m)
  | .sub => Template.binary (.yMinusD .m)
  | .and => Template.binary (.swappedDAndY .m)
  | .or => Template.binary (.swappedDOrY .m)
  | .eq => Template.compare .ne k
  | .gt => Template.compare .le k
  | .lt => Template.compare .ge k
  | .not => Template.pointToTop ++ [Template.assign [.m] (.notY .m)]
  | .neg => [Template.assign [.d] .zero] ++ Template.pointToTop ++ [Template.assign [.m] (.dMinusY .m)]

def Operator.isComparison : Operator → Bool
  | .eq | .gt | .lt => true
  | _ => false

/-! ## Requests -/

namespace Generator

/-- The name of a source file as the generator keeps it: the last part of the path without its extension. -/
def keptName (path : Text) : Text := Text.dropEnding (Path.extension (Path.base path)) (Path.base path)

/-- Goes on to a source file. A file of another name starts its slots after those claimed so far. -/
def setFile (g : Generator) (path : Text) : Generator :=
  if keptName path = g.fileName then g
  else { g with fileName := keptName path, staticFirst := g.staticFirst + g.staticUsed, staticUsed := 0 }

def usesSymbols (g : Generator) : Bool := g.staticSymbols && !g.fileName.isEmpty

def staticOperand (g : Generator) (index : Nat) : Operand :=
  if g.usesSymbols then .symbol (g.fileName ++ 46 :: Text.decimal index)
  else .constant (Segment.staticBase + g.staticFirst + index)

def claim (g : Generator) (index : Nat) : Except Rejection Generator :=
  if g.usesSymbols then .ok g
  else if Segment.staticSize ≤ g.staticFirst + index then .error (.noSlot index g.fileName (g.staticFirst + index))
  else .ok { g with staticUsed := max g.staticUsed (index + 1) }

def claimEntry (g : Generator) (segment : Segment) (index : Nat) : Except Rejection Generator :=
  match segment with
  | .statics => g.claim index
  | _ => .ok g

def baseSymbol : Segment → Text
  | .locals => ascii "LCL"
  | .arguments => ascii "ARG"
  | .this => ascii "THIS"
  | .that => ascii "THAT"
  | _ => ascii "R5"

def pointerRegister (index : Nat) : Operand := .symbol (if index = 0 then ascii "THIS" else ascii "THAT")

def loadValue (g : Generator) (segment : Segment) (index : Nat) : List Line :=
  let indexed (base : Input) : List Line :=
    [Template.load (.symbol (baseSymbol segment)), Template.assign [.d] (.y base), Template.load (.constant index),
      Template.assign [.a] (.dPlusY .a), Template.assign [.d] (.y .m)]
  match segment with
  | .constant => [Template.load (.constant index), Template.assign [.d] (.y .a)]
  | .locals | .arguments | .this | .that => indexed .m
  | .temp => indexed .a
  | .pointer => [Template.load (pointerRegister index), Template.assign [.d] (.y .m)]
  | .statics => [Template.load (g.staticOperand index), Template.assign [.d] (.y .m)]

def loadAddress (g : Generator) (segment : Segment) (index : Nat) : List Line :=
  let indexed (base : Input) : List Line :=
    [Template.load (.symbol (baseSymbol segment)), Template.assign [.d] (.y base), Template.load (.constant index),
      Template.assign [.d] (.dPlusY .a)]
  match segment with
  | .constant => []
  | .locals | .arguments | .this | .that => indexed .m
  | .temp => indexed .a
  | .pointer => [Template.load (pointerRegister index), Template.assign [.d] (.y .a)]
  | .statics => [Template.load (g.staticOperand index), Template.assign [.d] (.y .a)]

def findEntry (pops : Bool) (name : Text) (index : Int) : Except Rejection (Segment × Nat) :=
  match Segment.ofName? name with
  | none => .error (.unknownSegment name)
  | some segment =>
    if pops && segment.isReadOnly then .error (.readOnly segment)
    else if index < 0 ∨ segment.size ≤ index.toNat then .error (.outOfRange segment index)
    else .ok (segment, index.toNat)

/-- The code for a request, and whether it takes the next label pair. -/
structure Plan where
  lines : List Line
  comparison : Bool
  deriving DecidableEq, Repr

def lowerAccess (g : Generator) (pops : Bool) (name : Text) (index : Int) :
    Except Rejection (Plan × Generator) := do
  let (segment, index) ← findEntry pops name index
  let g ← g.claimEntry segment index
  if pops then return (⟨g.loadAddress segment index ++ Template.popToAddress, false⟩, g)
  else return (⟨g.loadValue segment index ++ Template.pushData, false⟩, g)

/-- Lowers a request. The slots that it needs are claimed in the generator that comes with the code. -/
def lower (g : Generator) : Request → Except Rejection (Plan × Generator)
  | .operator word =>
    match Operator.ofName? word with
    | some op => .ok (⟨op.code g.comparisons, op.isComparison⟩, g)
    | none => .error (.notOperator word)
  | .access .push segment index => g.lowerAccess false segment index
  | .access .pop segment index => g.lowerAccess true segment index
  | .access kind _ _ => .error (.notAccess kind)

/-- The lines that are written for a request: its code, after a remark if the generator annotates. -/
def emission (g : Generator) (r : Request) (plan : Plan) : List Line :=
  if g.annotate then .remark r.toText :: plan.lines else plan.lines

def written (g : Generator) (plan : Plan) : Generator :=
  if plan.comparison then { g with comparisons := g.comparisons + 1 } else g

end Generator

end HackStack
