import HackStack.Path
import HackStack.Text.Glyph

/-!
# File name patterns

In a pattern a star stands for any run of bytes, a question mark for one character, and brackets for one
character of a class; a backslash takes away the meaning of what follows it. None of them matches a slash.
-/

namespace HackStack.Path

inductive PatternPiece where
  | anyRun
  | anyOne
  | oneOf (negated : Bool) (ranges : List (Nat × Nat))
  | byte (b : UInt8)
  deriving DecidableEq, Repr

/-- The code point of a piece of text in a class. A stray byte counts as the replacement character. -/
def codeOf : Glyph → Nat
  | .char code => code
  | .stray _ => 0xFFFD

def readClassChar : Text → Option (Nat × Text)
  | [] => none
  | b :: rest =>
    if b == 45 || b == 93 then none
    else
      match (if b == 92 then rest else b :: rest) with
      | [] => none
      | c :: rest =>
        match Glyph.atHead c rest with
        | (.stray _, _) => none
        | (.char code, n) => if (rest.drop n).isEmpty then none else some (code, rest.drop n)

/-- Reads the ranges of a class up to its closing bracket. At least one range comes first. -/
def readRanges (fuel : Nat) (done : List (Nat × Nat)) (t : Text) : Option (List (Nat × Nat) × Text) :=
  match fuel with
  | 0 => none
  | fuel + 1 =>
    if t.head? == some 93 && !done.isEmpty then some (done.reverse, t.drop 1)
    else do
      let (lo, rest) ← readClassChar t
      if rest.head? == some 45 then
        let (hi, rest) ← readClassChar (rest.drop 1)
        readRanges fuel ((lo, hi) :: done) rest
      else readRanges fuel ((lo, lo) :: done) rest

def readPattern (fuel : Nat) (done : List PatternPiece) (t : Text) : Option (List PatternPiece) :=
  match fuel, t with
  | _, [] => some done.reverse
  | 0, _ => none
  | fuel + 1, b :: rest =>
    if b == 42 then readPattern fuel (.anyRun :: done) rest
    else if b == 63 then readPattern fuel (.anyOne :: done) rest
    else if b == 91 then
      let negated := rest.head? == some 94
      match readRanges t.length [] (if negated then rest.drop 1 else rest) with
      | some (ranges, rest) => readPattern fuel (.oneOf negated ranges :: done) rest
      | none => none
    else if b == 92 then
      match rest with
      | [] => none
      | c :: rest => readPattern fuel (.byte c :: done) rest
    else readPattern fuel (.byte b :: done) rest

def pattern? (t : Text) : Option (List PatternPiece) := readPattern t.length [] t

def remainders : Text → List Text
  | [] => [[]]
  | b :: rest => (b :: rest) :: if b == separator then [] else remainders rest

def matchesName : List PatternPiece → Text → Bool
  | [], name => name.isEmpty
  | .anyRun :: rest, name => (remainders name).any fun r => matchesName rest r
  | .byte b :: rest, name => name.head? == some b && matchesName rest (name.drop 1)
  | .anyOne :: rest, name =>
    match name with
    | [] => false
    | b :: after => b != separator && matchesName rest (after.drop (Glyph.atHead b after).2)
  | .oneOf negated ranges :: rest, name =>
    match name with
    | [] => false
    | b :: after =>
      (ranges.any fun (lo, hi) => lo ≤ codeOf (Glyph.atHead b after).1 && codeOf (Glyph.atHead b after).1 ≤ hi)
        != negated && matchesName rest (after.drop (Glyph.atHead b after).2)

def hasMeta (path : Text) : Bool := path.any fun b => b == 42 || b == 63 || b == 91 || b == 92

end HackStack.Path
