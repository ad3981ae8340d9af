import HackStack.Yaml.Document
import HackStack.Yaml.Value
import Std.Data.TreeMap

/-!
# Decoding YAML nodes

A node is decoded into a field of a known type. An absent value leaves the field as it was, or unset; a value
of another kind is a mismatch, which makes the whole document unusable.
-/

namespace HackStack.Yaml

def Node.isNull : Node → Bool
  | .scalar t plain =>
    match valueOf t plain with
    | .null => true
    | _ => false
  | _ => false

def textField (old : Text) (n : Node) : Option Text :=
  match n with
  | .scalar t _ => some (if n.isNull then old else t)
  | _ => none

/-- Decodes a truth value. Some words of text are truth values too. -/
def boolField (old : Bool) : Node → Option Bool
  | .scalar t plain =>
    match valueOf t plain with
    | .null => some old
    | .bool b => some b
    | .text w =>
      if [ascii "y", ascii "Y", ascii "yes", ascii "on"].contains w then some true
      else if [ascii "n", ascii "N", ascii "no", ascii "off"].contains w then some false
      else none
    | _ => none
  | _ => none

/-- The whole number that a floating point number is cut to, if it is not too large. Numbers out of range
become the least one. -/
def wholeOf? (f : Float) : Option Int :=
  if f ≤ 9223372036854775808.0 then
    some (if f ≥ 9223372036854775808.0 ∨ f ≤ -9223372036854775808.0 then -9223372036854775808 else f.toInt64.toInt)
  else none

/-- Decodes a whole number of so many bits, signed; the result is `none` for an absent value. -/
def intValue (bits : Nat) : Node → Option (Option Int)
  | .scalar t plain =>
    let limit : Int := (Nat.pow 2 (bits - 1) : Nat)
    let fits (i : Int) : Option (Option Int) := if -limit ≤ i ∧ i < limit then some (some i) else none
    match valueOf t plain with
    | .null => some none
    | .int i => fits i
    | .float f => (wholeOf? f).bind fits
    | _ => none
  | _ => none

def intField (old : Int) (n : Node) : Option Int := (intValue 64 n).map fun i => i.getD old

def floatField (old : Float) : Node → Option Float
  | .scalar t plain =>
    match valueOf t plain with
    | .null => some old
    | .int i => some (Float.ofInt i)
    | .float f => some f
    | _ => none
  | _ => none

/-- Whether two keys are the same. Of collections as keys only their kind is compared. -/
def sameKey : Node → Node → Bool
  | .scalar a _, .scalar b _ => a == b
  | .sequence _, .sequence _ => true
  | .mapping _, .mapping _ => true
  | _, _ => false

def uniqueKeys : List (Node × Node) → Bool
  | [] => true
  | (key, _) :: rest => !(rest.any fun p => sameKey key p.1) && uniqueKeys rest

/-- How the value of a key changes a record. Unknown keys have no such rule. -/
abbrev FieldRules (α : Type) := Text → Option (α → Node → Option α)

def FieldRules.ofList {α : Type} (rules : List (String × (α → Node → Option α))) : FieldRules α := fun key =>
  (rules.find? fun rule => ascii rule.1 == key).map Prod.snd

def recordPair {α : Type} (rules : FieldRules α) (old : α) (pair : Node × Node) : Option α :=
  match pair.1 with
  | .scalar key _ =>
    if pair.1.isNull then some old
    else match rules key with
      | some rule => rule old pair.2
      | none => some old
  | _ => none

def recordField {α : Type} (rules : FieldRules α) (old : α) (n : Node) : Option α :=
  match n with
  | .mapping pairs => if uniqueKeys pairs then pairs.foldlM (recordPair rules) old else none
  | .scalar _ _ => if n.isNull then some old else none
  | .sequence _ => none

/-- Decodes a list; the result is `none` for an absent value. Absent items are left out. -/
def listValue {α : Type} (item : Node → Option α) (n : Node) : Option (Option (List α)) :=
  match n with
  | .sequence items => ((items.filter fun i => !i.isNull).mapM item).map some
  | .scalar _ _ => if n.isNull then some none else none
  | .mapping _ => none

/-- Decodes one pair of memory contents. An absent address is passed over, an absent value is zero. -/
def imagePair (image : Std.TreeMap Int Int) (pair : Node × Node) : Option (Std.TreeMap Int Int) := do
  match ← intValue 64 pair.1 with
  | none => some image
  | some address => some (image.insert address ((← intValue 16 pair.2).getD 0))

def imageField (n : Node) : Option (Std.TreeMap Int Int) :=
  match n with
  | .mapping pairs => if uniqueKeys pairs then pairs.foldlM imagePair ∅ else none
  | .scalar _ _ => if n.isNull then some ∅ else none
  | .sequence _ => none

end HackStack.Yaml
