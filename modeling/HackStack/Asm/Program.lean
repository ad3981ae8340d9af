import HackStack.Asm.Instruction
import HackStack.Listing
import Std.Data.TreeMap

/-!
# Assembling

A program is assembled in two passes over the lines of its text, taken without remarks and white space. The
first binds every label to the number of instructions before it; the second encodes the instructions and
gives each symbol that is neither predefined nor a label the next free address from 16 on.
-/

namespace HackStack.Asm

abbrev SymbolTable := Std.TreeMap Text UInt16

/-- The registers, the segment pointers and the two device maps. -/
def predefined : List (Text × UInt16) :=
  [(ascii "SP", 0), (ascii "LCL", 1), (ascii "ARG", 2), (ascii "THIS", 3), (ascii "THAT", 4),
    (ascii "R0", 0), (ascii "R1", 1), (ascii "R2", 2), (ascii "R3", 3), (ascii "R4", 4), (ascii "R5", 5),
    (ascii "R6", 6), (ascii "R7", 7), (ascii "R8", 8), (ascii "R9", 9), (ascii "R10", 10), (ascii "R11", 11),
    (ascii "R12", 12), (ascii "R13", 13), (ascii "R14", 14), (ascii "R15", 15),
    (ascii "SCREEN", 16384), (ascii "KBD", 24576)]

def initialTable : SymbolTable := predefined.foldl (fun table e => table.insert e.1 e.2) ∅

def firstVariable : UInt16 := 16

def isSymbolByte (b : UInt8) : Bool :=
  (97 ≤ b && b ≤ 122) || (65 ≤ b && b ≤ 90) || Text.isDigit b || b == 95 || b == 46 || b == 36 || b == 58

/-- Whether a text is a legal symbol: letters, digits, `_`, `.`, `$` and `:`, no digit first. -/
def isSymbol : Text → Bool
  | [] => false
  | b :: rest => !Text.isDigit b && (b :: rest).all isSymbolByte

inductive Problem where
  | unterminatedLabel (text : Text)
  | invalidLabel (name : Text)
  | duplicateLabel (name : Text)
  | labelBeyondRom (name : Text)
  | invalidConstant (operand : Text)
  | invalidSymbol (operand : Text)
  | emptyDestination
  | invalidDestination (text : Text)
  | repeatedDestination (text : Text)
  | invalidJump (text : Text)
  | invalidComputation (text : Text)
  deriving DecidableEq, Repr

def Problem.describe : Problem → Text
  | unterminatedLabel text => ascii "unterminated label " ++ Text.quote text
  | invalidLabel name => ascii "invalid label " ++ Text.quote name
  | duplicateLabel name => ascii "duplicate label " ++ Text.quote name
  | labelBeyondRom name => ascii "label " ++ Text.quote name ++ ascii " beyond ROM"
  | invalidConstant operand => ascii "invalid constant " ++ Text.quote operand
  | invalidSymbol operand => ascii "invalid symbol " ++ Text.quote operand
  | emptyDestination => ascii "empty destination"
  | invalidDestination text => ascii "invalid destination " ++ Text.quote text
  | repeatedDestination text => ascii "repeated destination " ++ Text.quote text
  | invalidJump text => ascii "invalid jump in " ++ Text.quote text
  | invalidComputation text => ascii "invalid computation in " ++ Text.quote text

structure SourceError where
  line : Nat
  problem : Problem
  deriving DecidableEq, Repr

def SourceError.message (e : SourceError) : Text :=
  ascii "line " ++ Text.decimal e.line ++ ascii ": " ++ e.problem.describe ++ ascii ": hack syntax error"

/-! ## Reading instructions -/

/-- Reads the operand of an address instruction. A digit first makes it a constant. -/
def Operand.ofText (t : Text) : Except Problem Operand :=
  match t with
  | [] => .error (.invalidSymbol t)
  | b :: _ =>
    if Text.isDigit b then
      match Text.readNat? t with
      | some n => if n ≤ maxConstant then .ok (.constant n) else .error (.invalidConstant t)
      | none => .error (.invalidConstant t)
    else if isSymbol t then .ok (.symbol t)
    else .error (.invalidSymbol t)

/-- Reads the letters of a destination, `done` being the registers before them in reverse. -/
def readRegisters (text : Text) (done : List Register) : Text → Except Problem (List Register)
  | [] => .ok done.reverse
  | b :: rest =>
    match Register.ofLetter? b with
    | none => .error (.invalidDestination text)
    | some r => if r ∈ done then .error (.repeatedDestination text) else readRegisters text (r :: done) rest

def readDestination (text : Text) : Except Problem (List Register) :=
  if text.isEmpty then .error .emptyDestination else readRegisters text [] text

/-- Reads a computing instruction: destination, jump, computation, in this order. -/
def readCompute (text : Text) : Except Problem Instruction := do
  let (dest, rest) ← match Text.cut? 61 text with
    | some (dest, rest) => pure (← readDestination dest, rest)
    | none => pure ([], text)
  let (comp, jump) ← match Text.cut? 59 rest with
    | some (comp, jump) =>
      match Jump.ofMnemonic? jump with
      | some j => pure (comp, some j)
      | none => throw (.invalidJump text)
    | none => pure (rest, none)
  match Computation.ofMnemonic? comp with
  | some c => return .compute dest c jump
  | none => throw (.invalidComputation text)

def Instruction.ofText (text : Text) : Except Problem Instruction :=
  match text with
  | 64 :: operand => (Operand.ofText operand).map .load
  | text => readCompute text

/-! ## First pass -/

/-- What is left of a line of assembly once its remark and all white space are gone. -/
def content (line : Text) : Text := Text.compact (Text.stripRemark line)

def isLabel : Text → Bool
  | 40 :: _ => true
  | _ => false

def labelName (text : Text) : Except Problem Text :=
  match text.drop 1 with
  | [] => .error (.unterminatedLabel text)
  | body =>
    if body.getLast? = some 41 then
      if isSymbol body.dropLast then .ok body.dropLast else .error (.invalidLabel body.dropLast)
    else .error (.unterminatedLabel text)

def bindLabel (table : SymbolTable) (address : Nat) (text : Text) : Except Problem SymbolTable := do
  let name ← labelName text
  if table.contains name then throw (.duplicateLabel name)
  if maxConstant < address then throw (.labelBeyondRom name)
  return table.insert name address.toUInt16

/-- Binds the labels of a list of lines, `address` being the number of instructions before it. -/
def bindLabels (table : SymbolTable) (address : Nat) : List Entry → Except SourceError SymbolTable
  | [] => .ok table
  | e :: rest =>
    if isLabel e.text then
      match bindLabel table address e.text with
      | .ok table => bindLabels table address rest
      | .error p => .error ⟨e.line, p⟩
    else bindLabels table (address + 1) rest

/-! ## Second pass -/

structure Encoding where
  table : SymbolTable
  next : UInt16
  words : Array UInt16
  lines : Array Nat

namespace Encoding

/-- The address of a symbol, which becomes a variable if it is new. -/
def resolve (e : Encoding) (name : Text) : UInt16 × Encoding :=
  match e.table[name]? with
  | some address => (address, e)
  | none => (e.next, { e with table := e.table.insert name e.next, next := e.next + 1 })

def encode (e : Encoding) : Instruction → UInt16 × Encoding
  | .load (.constant n) => (n.toUInt16, e)
  | .load (.symbol name) => e.resolve name
  | .compute dest comp jump => (computeWord dest comp jump, e)

def push (e : Encoding) (word : UInt16) (line : Nat) : Encoding :=
  { e with words := e.words.push word, lines := e.lines.push line }

def run (e : Encoding) : List Entry → Except SourceError Encoding
  | [] => .ok e
  | entry :: rest =>
    match Instruction.ofText entry.text with
    | .error p => .error ⟨entry.line, p⟩
    | .ok i =>
      match e.encode i with
      | (word, e) => run (e.push word entry.line) rest

end Encoding

structure Program where
  words : Array UInt16
  lines : Array Nat
  symbols : SymbolTable

def assemble (source : Text) : Except SourceError Program := do
  let entries := Listing.numbered content source
  let table ← bindLabels initialTable 0 entries
  let code ← Encoding.run ⟨table, firstVariable, #[], #[]⟩ (entries.filter fun e => !isLabel e.text)
  return ⟨code.words, code.lines, code.table⟩

end HackStack.Asm
