import HackStack.Yaml

/-!
# Values of YAML scalars

A plain scalar can stand for nothing, a truth value, an integer or a floating point number. Every other scalar
stands for its text.
-/

namespace HackStack.Yaml

inductive Value where
  | null
  | bool (b : Bool)
  | int (i : Int)
  | float (f : Float)
  | text (t : Text)

def wordValue? (t : Text) : Option Value :=
  let isOne (words : List String) : Bool := words.any fun w => ascii w == t
  if isOne ["", "~", "null", "Null", "NULL"] then some .null
  else if isOne ["true", "True", "TRUE"] then some (.bool true)
  else if isOne ["false", "False", "FALSE"] then some (.bool false)
  else if isOne [".nan", ".NaN", ".NAN"] then some (.float (0.0 / 0.0))
  else if isOne [".inf", ".Inf", ".INF", "+.inf", "+.Inf", "+.INF"] then some (.float (1.0 / 0.0))
  else if isOne ["-.inf", "-.Inf", "-.INF"] then some (.float (-1.0 / 0.0))
  else none

def intValue? (t : Text) : Option Int :=
  match Text.readInt t with
  | .ok i => some i
  | .error _ =>
    match Text.readUnsigned t with
    | .ok n => some n
    | .error _ => none

/-- A decimal number: whether it is negative, its digits as a whole number, how many they are, and the exponent
of ten that goes with them. -/
structure DecimalNumber where
  negative : Bool
  mantissa : Nat
  digits : Nat
  exponent : Int
  deriving DecidableEq, Repr

def exponent? : Text → Option Int
  | [] => some 0
  | e :: rest =>
    if Text.lowerByte e != 101 then none
    else match rest with
      | 45 :: digits => (Text.readNat? digits).map fun n => -(n : Int)
      | 43 :: digits => (Text.readNat? digits).map Int.ofNat
      | digits => (Text.readNat? digits).map Int.ofNat

/-- Reads a decimal number: digits with a point before, among or behind them, and an optional exponent. -/
def decimal? (t : Text) : Option DecimalNumber :=
  let (negative, t) := match t with
    | 45 :: rest => (true, rest)
    | 43 :: rest => (false, rest)
    | t => (false, t)
  let (whole, rest) := t.span Text.isDigit
  let (fraction, rest) := match rest with
    | 46 :: rest => rest.span Text.isDigit
    | rest => ([], rest)
  if whole.isEmpty && fraction.isEmpty then none
  else (exponent? rest).map fun e =>
    { negative := negative
      mantissa := Text.digitsValue (whole ++ fraction)
      digits := (whole ++ fraction).length
      exponent := e - fraction.length }

def DecimalNumber.toFloat? (d : DecimalNumber) : Option Float :=
  let size := d.digits + d.exponent
  let magnitude : Option Float :=
    if d.mantissa = 0 ∨ size < -400 then some 0.0
    else if 400 < size then none
    else
      let f := Float.ofScientific d.mantissa (decide (d.exponent < 0)) d.exponent.natAbs
      if f.isInf then none else some f
  magnitude.map fun f => if d.negative then -f else f

/-- What a plain scalar stands for. Underscores between the digits of a number do not count. -/
def plainValue (t : Text) : Value :=
  match wordValue? t with
  | some v => v
  | none =>
    let number : Option Value :=
      match t with
      | [] => none
      | b :: _ =>
        if Text.isDigit b || b == 43 || b == 45 then
          let digits := t.filter (· != 95)
          match intValue? digits with
          | some i => some (.int i)
          | none => ((decimal? digits).bind DecimalNumber.toFloat?).map .float
        else if b == 46 then ((decimal? t).bind DecimalNumber.toFloat?).map .float
        else none
    number.getD (.text t)

def valueOf (t : Text) (plain : Bool) : Value := if plain then plainValue t else .text t

end HackStack.Yaml
