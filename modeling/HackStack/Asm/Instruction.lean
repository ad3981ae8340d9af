import HackStack.Text.Numeral

/-!
# Instructions of the Hack computer

An instruction either loads the address register with a constant or a symbol, or computes a value from the
data register and one other input, stores it in some of the three destinations and may jump. Every
computation has one word, and some have a second spelling with the operands exchanged.
-/

namespace HackStack.Asm

/-- A place that a computed value can go to: the address register, the data register or the memory word that
the address register points to. -/
inductive Register where
  | a
  | d
  | m
  deriving DecidableEq, Repr

namespace Register

def all : List Register := [a, d, m]

def letter : Register → UInt8
  | a => 65
  | d => 68
  | m => 77

def ofLetter? (b : UInt8) : Option Register := all.find? fun r => r.letter == b

def bit : Register → UInt16
  | a => 4
  | d => 2
  | m => 1

end Register

/-- The second input of a computation, beside the data register. -/
inductive Input where
  | a
  | m
  deriving DecidableEq, Repr

namespace Input

def all : List Input := [a, m]

def letter : Input → UInt8
  | a => 65
  | m => 77

def bit : Input → UInt16
  | a => 0
  | m => 64

end Input

/-- What an instruction computes. `y` is the second input; a `swapped` constructor is another spelling of the
computation before it. -/
inductive Computation where
  | zero
  | one
  | minusOne
  | d
  | notD
  | negD
  | incD
  | swappedIncD
  | decD
  | y (i : Input)
  | notY (i : Input)
  | negY (i : Input)
  | incY (i : Input)
  | swappedIncY (i : Input)
  | decY (i : Input)
  | dPlusY (i : Input)
  | swappedDPlusY (i : Input)
  | dMinusY (i : Input)
  | yMinusD (i : Input)
  | dAndY (i : Input)
  | swappedDAndY (i : Input)
  | dOrY (i : Input)
  | swappedDOrY (i : Input)
  deriving DecidableEq, Repr

namespace Computation

def withInput (i : Input) : List Computation :=
  [y i, notY i, negY i, incY i, swappedIncY i, decY i, dPlusY i, swappedDPlusY i, dMinusY i, yMinusD i, dAndY i,
    swappedDAndY i, dOrY i, swappedDOrY i]

def all : List Computation :=
  [zero, one, minusOne, d, notD, negD, incD, swappedIncD, decD] ++ withInput .a ++ withInput .m

def mnemonic : Computation → Text
  | zero => ascii "0"
  | one => ascii "1"
  | minusOne => ascii "-1"
  | d => ascii "D"
  | notD => ascii "!D"
  | negD => ascii "-D"
  | incD => ascii "D+1"
  | swappedIncD => ascii "1+D"
  | decD => ascii "D-1"
  | y i => [i.letter]
  | notY i => [33, i.letter]
  | negY i => [45, i.letter]
  | incY i => i.letter :: ascii "+1"
  | swappedIncY i => ascii "1+" ++ [i.letter]
  | decY i => i.letter :: ascii "-1"
  | dPlusY i => ascii "D+" ++ [i.letter]
  | swappedDPlusY i => i.letter :: ascii "+D"
  | dMinusY i => ascii "D-" ++ [i.letter]
  | yMinusD i => i.letter :: ascii "-D"
  | dAndY i => ascii "D&" ++ [i.letter]
  | swappedDAndY i => i.letter :: ascii "&D"
  | dOrY i => ascii "D|" ++ [i.letter]
  | swappedDOrY i => i.letter :: ascii "|D"

def code : Computation → UInt16
  | zero => 0b0101010
  | one => 0b0111111
  | minusOne => 0b0111010
  | d => 0b0001100
  | notD => 0b0001101
  | negD => 0b0001111
  | incD | swappedIncD => 0b0011111
  | decD => 0b0001110
  | y i => i.bit ||| 0b0110000
  | notY i => i.bit ||| 0b0110001
  | negY i => i.bit ||| 0b0110011
  | incY i | swappedIncY i => i.bit ||| 0b0110111
  | decY i => i.bit ||| 0b0110010
  | dPlusY i | swappedDPlusY i => i.bit ||| 0b0000010
  | dMinusY i => i.bit ||| 0b0010011
  | yMinusD i => i.bit ||| 0b0000111
  | dAndY i | swappedDAndY i => i.bit ||| 0b0000000
  | dOrY i | swappedDOrY i => i.bit ||| 0b0010101

def ofMnemonic? (t : Text) : Option Computation := all.find? fun c => c.mnemonic == t

/-- Different computations are written differently, so each is found by its mnemonic. -/
theorem ofMnemonic?_mnemonic (c : Computation) : ofMnemonic? c.mnemonic = some c := by
  cases c with
  | y i | notY i | negY i | incY i | swappedIncY i | decY i | dPlusY i | swappedDPlusY i | dMinusY i | yMinusD i
  | dAndY i | swappedDAndY i | dOrY i | swappedDOrY i => cases i <;> decide
  | _ => decide

theorem mnemonic_of_ofMnemonic? {t : Text} {c : Computation} (h : ofMnemonic? t = some c) : c.mnemonic = t := by
  have := List.find?_some h
  simpa using this

end Computation

inductive Jump where
  | gt
  | eq
  | ge
  | lt
  | ne
  | le
  | always
  deriving DecidableEq, Repr

namespace Jump

def all : List Jump := [gt, eq, ge, lt, ne, le, always]

def mnemonic : Jump → Text
  | gt => ascii "JGT"
  | eq => ascii "JEQ"
  | ge => ascii "JGE"
  | lt => ascii "JLT"
  | ne => ascii "JNE"
  | le => ascii "JLE"
  | always => ascii "JMP"

/-- The three bits for a negative, a zero and a positive value. -/
def code : Jump → UInt16
  | gt => 0b001
  | eq => 0b010
  | ge => 0b011
  | lt => 0b100
  | ne => 0b101
  | le => 0b110
  | always => 0b111

def ofMnemonic? (t : Text) : Option Jump := all.find? fun j => j.mnemonic == t

theorem ofMnemonic?_mnemonic (j : Jump) : ofMnemonic? j.mnemonic = some j := by
  cases j <;> decide

theorem mnemonic_of_ofMnemonic? {t : Text} {j : Jump} (h : ofMnemonic? t = some j) : j.mnemonic = t := by
  have := List.find?_some h
  simpa using this

end Jump

inductive Operand where
  | constant (n : Nat)
  | symbol (name : Text)
  deriving DecidableEq, Repr

inductive Instruction where
  | load (operand : Operand)
  | compute (dest : List Register) (comp : Computation) (jump : Option Jump)
  deriving DecidableEq, Repr

def maxConstant : Nat := 32767

def destCode (dest : List Register) : UInt16 := dest.foldl (fun bits r => bits ||| r.bit) 0

def computeWord (dest : List Register) (comp : Computation) (jump : Option Jump) : UInt16 :=
  (0xE000 : UInt16) ||| (comp.code <<< 6) ||| (destCode dest <<< 3) ||| (jump.map Jump.code).getD 0

/-! ## Writing instructions -/

def Operand.toText : Operand → Text
  | .constant n => Text.decimal n
  | .symbol name => name

def Instruction.toText : Instruction → Text
  | .load operand => 64 :: operand.toText
  | .compute dest comp jump =>
    (if dest.isEmpty then [] else dest.map Register.letter ++ [61]) ++ comp.mnemonic ++
      (match jump with
        | some j => 59 :: j.mnemonic
        | none => [])

end HackStack.Asm
