import HackStack.Text

/-!
# Numerals

Writing numbers in decimal and reading them. `readNat?` is the plain reader: digits only. `readInt` is the
reader of settings and options, with a sign, a base mark and underscores between digits.
-/

namespace HackStack.Text

def decimal (n : Nat) : Text := (Nat.toDigits 10 n).map fun c => c.toNat.toUInt8

def signed (i : Int) : Text :=
  match i with
  | .ofNat n => decimal n
  | .negSucc n => 45 :: decimal (n + 1)

def hex (width n : Nat) : Text :=
  let digits := (Nat.toDigits 16 n).map fun c => c.toNat.toUInt8
  List.replicate (width - digits.length) 48 ++ digits

def isDigit (b : UInt8) : Bool := 48 ≤ b && b ≤ 57

def digitsValue (t : Text) : Nat := t.foldl (fun v b => 10 * v + (b.toNat - 48)) 0

/-- Reads a numeral of decimal digits. Leading zeros are allowed, a sign is not. -/
def readNat? (t : Text) : Option Nat :=
  if !t.isEmpty && t.all isDigit then some (digitsValue t) else none

/-! ## Numerals with a base mark -/

inductive NumeralError where
  | malformed
  | outOfRange
  deriving DecidableEq, Repr

def lowerByte (b : UInt8) : UInt8 := if 65 ≤ b && b ≤ 90 then b + 32 else b

def upperByte (b : UInt8) : UInt8 := if 97 ≤ b && b ≤ 122 then b - 32 else b

def digitOf? (b : UInt8) : Option Nat :=
  if isDigit b then some (b.toNat - 48)
  else if 97 ≤ lowerByte b && lowerByte b ≤ 122 then some ((lowerByte b).toNat - 87)
  else none

/-- The base that a numeral is written in, and its digits: `0b`, `0o` and `0x` before at least one more
character, or a plain leading `0` for base 8. -/
def baseOf : Text → Nat × Text
  | 48 :: m :: d :: rest =>
    if lowerByte m == 98 then (2, d :: rest)
    else if lowerByte m == 111 then (8, d :: rest)
    else if lowerByte m == 120 then (16, d :: rest)
    else (8, m :: d :: rest)
  | 48 :: rest => (8, rest)
  | t => (10, t)

/-- Whether underscores stand only between digits, a base mark counting as one. -/
def underscoresFit (t : Text) : Bool :=
  match t with
  | 48 :: m :: rest =>
    if lowerByte m == 120 then go true true rest
    else if lowerByte m == 98 || lowerByte m == 111 then go false true rest
    else go false false t
  | _ => go false false t
where
  /-- `hexa` says whether letters up to `f` are digits, `after` whether a digit stands before the text. -/
  go (hexa after : Bool) : Text → Bool
    | [] => true
    | [95] => false
    | b :: rest =>
      if isDigit b || (hexa && 97 ≤ lowerByte b && lowerByte b ≤ 102) then go hexa true rest
      else if b == 95 then
        after && match rest with
          | d :: _ =>
            (isDigit d || (hexa && 97 ≤ lowerByte d && lowerByte d ≤ 102)) && go hexa false rest
          | [] => false
      else go hexa false rest

def unsignedLimit : Nat := 18446744073709551616

def signedLimit : Nat := 9223372036854775808

/-- Reads digits of `base`, passing over underscores, and stops at the first value of 2^64 or more. -/
def readDigits (base : Nat) (value : Nat) : Text → Except NumeralError Nat
  | [] => .ok value
  | 95 :: rest => readDigits base value rest
  | b :: rest =>
    match digitOf? b with
    | none => .error .malformed
    | some d =>
      if base ≤ d then .error .malformed
      else if unsignedLimit ≤ value * base + d then .error .outOfRange
      else readDigits base (value * base + d) rest

/-- Reads an unsigned numeral below 2^64 with an optional base mark. -/
def readUnsigned (t : Text) : Except NumeralError Nat := do
  if t.isEmpty then throw .malformed
  let value ← readDigits (baseOf t).1 0 (baseOf t).2
  if t.contains 95 && !underscoresFit t then throw .malformed
  return value

/-- Reads a numeral with an optional sign and base mark that fits 64 bits, signed. -/
def readInt (t : Text) : Except NumeralError Int :=
  match t with
  | 45 :: rest => do
    let n ← readUnsigned rest
    if signedLimit < n then throw .outOfRange
    return -(n : Int)
  | t => do
    let n ← readUnsigned (match t with | 43 :: rest => rest | t => t)
    if signedLimit ≤ n then throw .outOfRange
    return (n : Int)

end HackStack.Text
