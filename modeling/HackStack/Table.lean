import HackStack.Text.Numeral
import HackStack.Text.Width

/-!
# Tables

A table has a title, a header and rows of numbers and texts. It is drawn with lines of minus signs: one over
the title without corners inside, and one each under the title, the header and the rows. A column of numbers
is set to the right, header included; all others to the left.
-/

namespace HackStack

inductive Cell where
  | number (i : Int)
  | text (t : Text)
  deriving DecidableEq, Repr

structure Table where
  title : Text
  header : List Text
  rows : List (List Cell)
  deriving DecidableEq, Repr

namespace Cell

def isNumber : Cell → Bool
  | number _ => true
  | text _ => false

/-- Writes the bytes of a line over what a carriage return goes back to. -/
def overwrite (line : Text) : Text :=
  (Text.splitAt 13 line).foldl (fun shown part => part ++ shown.drop part.length) []

/-- Drops the carriage return before a line feed. -/
def joinReturns (t : Text) : List Text :=
  match (Text.lines t).reverse with
  | [] => []
  | last :: before => (before.map (Text.dropEnding [13])).reverse ++ [last]

/-- The lines of a cell. A tab becomes four spaces, and text after a carriage return covers the start of its
line. -/
def lines : Cell → List Text
  | number i => [Text.signed i]
  | text t =>
    (joinReturns (t.flatMap fun b => if b == 9 then [32, 32, 32, 32] else [b])).map overwrite

end Cell

namespace Table

def capitals (t : Text) : Text := t.map Text.upperByte

def column (t : Table) (i : Nat) : List Cell := t.rows.filterMap fun row => row[i]?

def alignsRight (t : Table) (i : Nat) : Bool := (t.column i).all Cell.isNumber

def maxWidth (lines : List Text) : Nat := lines.foldl (fun n l => max n (Text.width l)) 0

def columnWidth (t : Table) (i : Nat) (name : Text) : Nat :=
  maxWidth (name :: (t.column i).flatMap Cell.lines)

def pad (right : Bool) (width : Nat) (line : Text) : Text :=
  let blanks := List.replicate (width - Text.width line) 32
  if right then blanks ++ line else line ++ blanks

abbrev Layout := List (Nat × Bool)

def layout (t : Table) : Layout :=
  t.header.zipIdx.map fun (name, i) => (t.columnWidth i (capitals name), t.alignsRight i)

def separator (l : Layout) : Text :=
  l.foldl (fun line (width, _) => line ++ List.replicate (width + 2) 45 ++ [43]) [43]

def drawLine (l : Layout) (texts : List Text) : Text :=
  (l.zip texts).foldl (fun line ((width, right), t) => line ++ ascii " " ++ pad right width t ++ ascii " |") (ascii "|")

/-- The drawn lines of a row. Cells with fewer lines than others are empty below. -/
def drawRow (l : Layout) (cells : List (List Text)) : List Text :=
  (List.range (cells.foldl (fun n c => max n c.length) 0)).map fun i =>
    drawLine l (cells.map fun c => c.getD i [])

def draw (t : Table) : List Text :=
  let l := t.layout
  let inner := (separator l).length - 2
  [43 :: (List.replicate inner 45 ++ [43]),
    ascii "| " ++ pad false (inner - 2) t.title ++ ascii " |",
    separator l] ++
    drawRow l (t.header.map fun name => [capitals name]) ++ [separator l] ++
    t.rows.flatMap (fun row => drawRow l (row.map Cell.lines)) ++ [separator l]

def toText (t : Table) : Text := t.draw.flatMap fun line => line ++ [Text.lineFeed]

end Table

end HackStack
