/-!
# Text

Sources, file names and messages are byte strings: a source may hold bytes that are not UTF-8, and they are
kept as they are. This module has the bytes of ASCII literals, the two ways of cutting a text at a mark, and
the division into lines.
-/

namespace HackStack

abbrev Text := List UInt8

def ascii (s : String) : Text := s.toList.map fun c => c.toNat.toUInt8

namespace Text

def lineFeed : UInt8 := 10

def startsWith (p t : Text) : Bool := p.isPrefixOf t

def endsWith (p t : Text) : Bool := p.isSuffixOf t

def dropEnding (p t : Text) : Text := if endsWith p t then t.take (t.length - p.length) else t

def join (sep : Text) (ts : List Text) : Text := sep.intercalate ts

def cut? (mark : UInt8) (t : Text) : Option (Text × Text) :=
  match t.span (· != mark) with
  | (before, _ :: after) => some (before, after)
  | (_, []) => none

/-- Divides `t` at every `mark`. There is always one part more than there are marks. -/
def splitAt (mark : UInt8) (t : Text) : List Text :=
  t.foldr (fun b parts =>
    if b = mark then [] :: parts
    else match parts with
      | part :: rest => (b :: part) :: rest
      | [] => [[b]]) [[]]

def lines (t : Text) : List Text := splitAt lineFeed t

@[simp] theorem splitAt_nil (mark : UInt8) : splitAt mark [] = [[]] := rfl

theorem splitAt_ne_nil (mark : UInt8) (t : Text) : splitAt mark t ≠ [] := by
  cases t with
  | nil => simp
  | cons b t =>
    simp only [splitAt, List.foldr_cons]
    split
    · simp
    · split <;> simp

theorem splitAt_mark (mark : UInt8) (t : Text) : splitAt mark (mark :: t) = [] :: splitAt mark t := by
  simp [splitAt]

def stripRemark (t : Text) : Text := go [] t
where
  /-- Collects the bytes before the two slashes, last byte first. -/
  go (kept : Text) : Text → Text
    | [] => kept.reverse
    | 47 :: 47 :: _ => kept.reverse
    | b :: rest => go (b :: kept) rest

end Text

end HackStack
