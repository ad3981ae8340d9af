import HackStack.Text.Numeral

/-!
# Shortest decimals

A binary floating point number is written with the fewest decimal digits that read back as the same number,
and among those with the digits nearest to it. A number is m · 2^q with whole m and q; the reals that read back
as it are those between the midpoints to its neighbours, the midpoints included if m is even.
-/

namespace HackStack.Decimal

structure Binary where
  m : Nat
  q : Int
  deriving DecidableEq, Repr

structure Digits where
  digits : Nat
  exponent : Int
  deriving DecidableEq, Repr

/-- The weight of the first bit of a number of full precision: 2 to the power 52. -/
def leadingBit : Nat := Nat.pow 2 52

/-- The weight of the sign among the bits of a number: 2 to the power 63. -/
def signBit : Nat := Nat.pow 2 63

namespace Binary

/-- The interval of reals that read back as a number, and the number in it, as fractions: the numerators of
the lower end, of the number and of the upper end, and their common denominator. Below a power of two the
neighbour is half as far away. -/
def interval (b : Binary) (least : Int) : Nat × Nat × Nat × Nat :=
  let scale := if 0 ≤ b.q then Nat.pow 2 b.q.toNat else 1
  let denominator := if 0 ≤ b.q then 1 else Nat.pow 2 (-b.q).toNat
  let low := if b.m = leadingBit ∧ least < b.q then 1 else 2
  ((4 * b.m - low) * scale, 4 * b.m * scale, (4 * b.m + 2) * scale, 4 * denominator)

end Binary

def floorUnits (numerator denominator : Nat) (e : Int) : Nat :=
  if 0 ≤ e then numerator / (denominator * Nat.pow 10 e.toNat) else numerator * Nat.pow 10 (-e).toNat / denominator

def compareUnits (n : Nat) (e : Int) (numerator denominator : Nat) : Ordering :=
  if 0 ≤ e then compare (n * Nat.pow 10 e.toNat * denominator) numerator
  else compare (n * denominator) (numerator * Nat.pow 10 (-e).toNat)

/-- The decimal with unit 10^`e` that lies in the interval of a number and nearest to it, if there is one. Of
two at the same distance it is the even one. -/
def onGrid? (b : Binary) (least e : Int) : Option Nat :=
  let (low, value, high, denominator) := b.interval least
  let inside (n : Nat) : Bool :=
    let lower := compareUnits n e low denominator
    let upper := compareUnits n e high denominator
    if b.m % 2 = 0 then lower != .lt && upper != .gt else lower == .gt && upper == .lt
  let n := floorUnits value denominator e
  if inside n && inside (n + 1) then
    match compareUnits (2 * n + 1) e (2 * value) denominator with
    | .lt => some (n + 1)
    | .gt => some n
    | .eq => some (if n % 2 = 0 then n else n + 1)
  else if inside n && n ≠ 0 then some n
  else if inside (n + 1) then some (n + 1)
  else none

def search (b : Binary) (least : Int) : Nat → Int → Digits
  | 0, e => ⟨b.m, e⟩
  | fuel + 1, e =>
    match onGrid? b least e with
    | some n => ⟨n, e⟩
    | none => search b least fuel (e - 1)

/-- The shortest decimal of a positive number, `least` being the smallest exponent of its format. No double
needs more than 17 digits, and its first digit has a unit of at most 10^308. -/
def shortest (b : Binary) (least : Int) : Digits := search b least 700 310

/-! ## Layout -/

def significant (d : Digits) : Text × Int :=
  let digits := Text.decimal d.digits
  let trimmed := (digits.reverse.dropWhile (· == 48)).reverse
  (trimmed, d.exponent + (digits.length : Int) - 1)

def exponentText (e : Int) : Text :=
  let digits := Text.decimal e.natAbs
  (if e < 0 then ascii "e-" else ascii "e+") ++ (if digits.length < 2 then 48 :: digits else digits)

/-- How decimals are laid out: the exponents of the first digit from `from_` up to `to_`, itself excluded, are
written positionally, all others with an exponent. -/
structure Layout where
  from_ : Int
  to_ : Int
  deriving DecidableEq, Repr

def Layout.write (l : Layout) (d : Digits) : Text :=
  let (digits, e) := significant d
  if e < l.from_ || l.to_ ≤ e then
    (match digits with
      | [] => []
      | first :: [] => [first]
      | first :: rest => first :: 46 :: rest) ++ exponentText e
  else if e < 0 then ascii "0." ++ List.replicate (-e - 1).toNat 48 ++ digits
  else
    let whole := e.toNat + 1
    if digits.length ≤ whole then digits ++ List.replicate (whole - digits.length) 48
    else digits.take whole ++ 46 :: digits.drop whole

/-! ## Doubles -/

def leastExponent : Int := -1074

/-- The magnitude of a finite double with the given bits, apart from zero. -/
def ofBits (bits : Nat) : Binary :=
  let fraction : Nat := bits % leadingBit
  let exponent : Nat := bits / leadingBit % 2048
  if exponent = 0 then ⟨fraction, leastExponent⟩ else ⟨leadingBit + fraction, (exponent : Int) - 1075⟩

def doubleText (l : Layout) (f : Float) : Text :=
  let bits := f.toBits.toNat
  let sign : Text := if bits / signBit = 1 then [45] else []
  if bits / leadingBit % 2048 = 2047 then
    if bits % leadingBit ≠ 0 then ascii "NaN" else if sign.isEmpty then ascii "+Inf" else ascii "-Inf"
  else if bits % signBit = 0 then sign ++ ascii "0"
  else sign ++ l.write (shortest (ofBits bits) leastExponent)

end HackStack.Decimal
