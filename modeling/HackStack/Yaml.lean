import HackStack.Text.Glyph
import HackStack.Text.Numeral

/-!
# YAML documents

Settings and suites are written in YAML. A document is a tree of scalars, sequences and mappings. A scalar
keeps its text, and whether it was written plainly, without quotes and not as a block: only a plain scalar can
stand for something else than its text.
-/

namespace HackStack.Yaml

inductive Node where
  | scalar (value : Text) (plain : Bool)
  | sequence (items : List Node)
  | mapping (pairs : List (Node × Node))
  deriving Repr

def Node.absent : Node := .scalar [] true

/-! ## Gaps

Where a scalar goes on after blanks or line ends, a line end becomes a space, and more of them become one
line feed less than there are. -/

/-- What lies between two words of a scalar: blanks on one line, line ends, or line ends after one that was
escaped. -/
inductive Gap where
  | blanks (reversed : Text)
  | breaks (count : Nat)
  | joined (count : Nat)
  deriving DecidableEq, Repr

namespace Gap

def empty : Gap := blanks []

/-- One more blank. Next to a line end it does not count. -/
def blank (b : UInt8) : Gap → Gap
  | blanks ws => blanks (b :: ws)
  | gap => gap

def newLine : Gap → Gap
  | blanks _ => breaks 1
  | breaks n => breaks (n + 1)
  | joined n => joined (n + 1)

def reversed : Gap → Text
  | blanks ws => ws
  | breaks 1 => [32]
  | breaks n => List.replicate (n - 1) 10
  | joined n => List.replicate n 10

end Gap

/-! ## Quoted scalars -/

/-- Reads what follows an opening single quote. A quote inside is written twice. -/
def singleQuoted (out : Text) (gap : Gap) : Text → Option (Text × Text)
  | [] => none
  | 39 :: 39 :: rest => singleQuoted (39 :: (gap.reversed ++ out)) .empty rest
  | 39 :: rest => some ((gap.reversed ++ out).reverse, rest)
  | 10 :: rest => singleQuoted out gap.newLine rest
  | b :: rest =>
    if b == 32 || b == 9 then singleQuoted out (gap.blank b) rest
    else singleQuoted (b :: (gap.reversed ++ out)) .empty rest

def escape? (b : UInt8) : Option Nat :=
  match b with
  | 48 => some 0
  | 97 => some 7
  | 98 => some 8
  | 116 | 9 => some 9
  | 110 => some 10
  | 118 => some 11
  | 102 => some 12
  | 114 => some 13
  | 101 => some 27
  | 32 => some 32
  | 34 => some 34
  | 47 => some 47
  | 92 => some 92
  | 78 => some 0x85
  | 95 => some 0xA0
  | 76 => some 0x2028
  | 80 => some 0x2029
  | _ => none

def hexWidth? (b : UInt8) : Option Nat :=
  match b with
  | 120 => some 2
  | 117 => some 4
  | 85 => some 8
  | _ => none

def hexValue? (digits : Text) : Option Nat :=
  digits.foldlM (fun v b => (Text.digitOf? b).bind fun d => if d < 16 then some (v * 16 + d) else none) 0

def hexEscape? (width : Nat) (rest : Text) : Option Nat :=
  if rest.length < width then none
  else (hexValue? (rest.take width)).filter fun code =>
    !(0xD800 ≤ code && code ≤ 0xDFFF) && code ≤ 0x10FFFF

/-- Reads what follows an opening double quote. `skip` bytes belong to an escape that was read. -/
def doubleQuoted (skip : Nat) (out : Text) (gap : Gap) : Text → Option (Text × Text)
  | [] => none
  | b :: rest =>
    match skip with
    | skip + 1 => doubleQuoted skip out gap rest
    | 0 =>
      if b == 34 then some ((gap.reversed ++ out).reverse, rest)
      else if b == 10 then doubleQuoted 0 out gap.newLine rest
      else if b == 32 || b == 9 then doubleQuoted 0 out (gap.blank b) rest
      else if b == 92 then
        match rest with
        | [] => none
        | 10 :: _ => doubleQuoted 1 (gap.reversed ++ out) (.joined 0) rest
        | e :: after =>
          match hexWidth? e with
          | some width =>
            match hexEscape? width after with
            | some code =>
              doubleQuoted (1 + width) ((Glyph.encode code).reverse ++ (gap.reversed ++ out)) .empty rest
            | none => none
          | none =>
            match escape? e with
            | some code => doubleQuoted 1 ((Glyph.encode code).reverse ++ (gap.reversed ++ out)) .empty rest
            | none => none
      else doubleQuoted 0 (b :: (gap.reversed ++ out)) .empty rest

def quoted : Text → Option (Text × Text)
  | 39 :: rest => singleQuoted [] .empty rest
  | 34 :: rest => doubleQuoted 0 [] .empty rest
  | _ => none

/-! ## Plain scalars -/

def blankNext : Text → Bool
  | [] => true
  | b :: _ => b == 32 || b == 9 || b == 10

def isFlowMark (b : UInt8) : Bool := b == 44 || b == 63 || b == 91 || b == 93 || b == 123 || b == 125

def startsPlain (flow : Bool) : Text → Bool
  | [] => false
  | b :: rest =>
    if b == 45 then !blankNext rest
    else if b == 63 || b == 58 then !flow && !blankNext rest
    else !(blankNext [b] || isFlowMark b || b == 35 || b == 38 || b == 42 || b == 33 || b == 124 || b == 62 ||
      b == 39 || b == 34 || b == 37 || b == 64 || b == 96)

/-- The part of a plain scalar on one line, and the text from where it stops: a colon before a blank, a remark,
a mark of a flow collection or the line end. -/
def plainPart (flow : Bool) (out blanks : Text) : Text → Text × Text
  | [] => (out.reverse, [])
  | b :: rest =>
    if b == 10 || (b == 35 && !blanks.isEmpty) || (b == 58 && blankNext rest) || (flow && isFlowMark b) then
      (out.reverse, b :: rest)
    else if b == 32 || b == 9 then plainPart flow out (b :: blanks) rest
    else plainPart flow (b :: (blanks ++ out)) [] rest

/-- The line ends and blanks before the next word: their gap, the column of the word and the text from it on.
A tab before column `least` is no indentation. -/
def nextWord (least : Nat) (gap : Gap) (column : Nat) : Text → Option (Gap × Nat × Text)
  | [] => some (gap, column, [])
  | b :: rest =>
    if b == 10 then nextWord least gap.newLine 0 rest
    else if b == 32 then nextWord least gap (column + 1) rest
    else if b == 9 then if column < least then none else nextWord least gap (column + 1) rest
    else some (gap, column, b :: rest)

def goesOn (flow : Bool) : Text → Bool
  | [] => false
  | b :: rest => !(b == 35 || (b == 58 && blankNext rest) || (flow && isFlowMark b))

/-- Reads the further lines of a plain scalar, which stand at column `least` or further right. -/
def plainLines (flow : Bool) (least : Nat) (fuel : Nat) (out rest : Text) : Option (Text × Text) :=
  match fuel with
  | 0 => some (out, rest)
  | fuel + 1 =>
    if rest.head? == some 10 then
      match nextWord least .empty 0 rest with
      | none => none
      | some (gap, column, word) =>
        if least ≤ column && goesOn flow word then
          match plainPart flow [] [] word with
          | (part, rest) => plainLines flow least fuel (out ++ gap.reversed.reverse ++ part) rest
        else some (out, rest)
    else some (out, rest)

/-- Reads a plain scalar whose further lines stand at column `least` or further right. -/
def plain (flow : Bool) (least : Nat) (t : Text) : Option (Text × Text) :=
  match plainPart flow [] [] t with
  | (part, rest) => plainLines flow least t.length part rest

/-! ## Block scalars -/

inductive Chomping where
  | strip
  | clip
  | keep
  deriving DecidableEq, Repr

/-- The header of a block: whether its lines are folded, its chomping and its indentation, if given. -/
structure BlockHeader where
  folded : Bool
  chomping : Chomping := .clip
  indent : Option Nat := none
  deriving DecidableEq, Repr

def headerMarks (fuel : Nat) (h : BlockHeader) (t : Text) : Option (BlockHeader × Text) :=
  match fuel, t with
  | 0, t => some (h, t)
  | _, [] => some (h, [])
  | fuel + 1, b :: rest =>
    if (b == 43 || b == 45) && h.chomping == .clip then
      headerMarks fuel { h with chomping := if b == 43 then .keep else .strip } rest
    else if b == 48 then none
    else if Text.isDigit b && h.indent.isNone then headerMarks fuel { h with indent := some (b.toNat - 48) } rest
    else some (h, b :: rest)

/-- Reads the header of a block, which takes the rest of its line, and gives the text after that line. -/
def blockHeader (t : Text) : Option (BlockHeader × Text) :=
  match t with
  | [] => none
  | style :: rest =>
    match headerMarks 2 { folded := style == 62 } rest with
    | none => none
    | some (h, rest) =>
      match rest.dropWhile fun b => b == 32 || b == 9 with
      | [] => some (h, [])
      | 10 :: rest => some (h, rest)
      | 35 :: rest => some (h, (rest.dropWhile (· != 10)).drop 1)
      | _ => none

def indentOf (line : Text) : Nat := (line.takeWhile (· == 32)).length

def isSpaces (line : Text) : Bool := line.all (· == 32)

/-- The indentation of a block that does not give it: that of its first line with content, or more if a line
of spaces before it is longer. It is `none` if a tab stands in the indentation. -/
def detectIndent (least : Nat) (longest : Nat) : List Text → Option Nat
  | [] => some (max least longest)
  | line :: rest =>
    if isSpaces line then detectIndent least (max longest line.length) rest
    else if (line.drop (indentOf line)).head? == some 9 then none
    else some (max least (max longest (indentOf line)))

/-- The lines of a block with indentation `indent`: each line with content, without its indentation, and the
number of empty lines before it; then the number of empty lines at the end and the lines after the block. -/
def blockLines (indent empties : Nat) (done : List (Nat × Text)) :
    List Text → Option (List (Nat × Text) × Nat × List Text)
  | [] => some (done.reverse, empties, [])
  | line :: rest =>
    if indent ≤ indentOf line && indent < line.length then
      blockLines indent 0 ((empties, line.drop indent) :: done) rest
    else if isSpaces line then blockLines indent (empties + 1) done rest
    else if (line.drop (indentOf line)).head? == some 9 && indentOf line < indent then none
    else some (done.reverse, empties, line :: rest)

def beginsBlank (line : Text) : Bool := line.head? == some 32 || line.head? == some 9

def lineGap (folded : Bool) (before after : Text) (empties : Nat) : Text :=
  if folded && !beginsBlank before && !beginsBlank after then
    if empties = 0 then [32] else List.replicate empties 10
  else List.replicate (empties + 1) 10

def joinLines (folded : Bool) (out before : Text) : List (Nat × Text) → Text
  | [] => out
  | (empties, line) :: rest => joinLines folded (out ++ lineGap folded before line empties ++ line) line rest

def blockBody (folded : Bool) : List (Nat × Text) → Text
  | [] => []
  | (empties, line) :: rest => joinLines folded (List.replicate empties 10 ++ line) line rest

/-- Reads a block scalar inside a collection at column `parent`, if there is one. The result is its text and
the text after it. -/
def block (parent : Option Nat) (t : Text) : Option (Text × Text) :=
  match blockHeader t with
  | none => none
  | some (h, rest) =>
    let least := match parent with
      | some p => p + 1
      | none => 1
    let pieces := Text.lines rest
    let terminated := pieces.getLast? == some []
    let lines := if terminated then pieces.dropLast else pieces
    let indent? := match h.indent with
      | some n => some (match parent with
        | some p => p + n
        | none => n)
      | none => detectIndent least 0 lines
    match indent? with
    | none => none
    | some indent =>
      match blockLines indent 0 [] lines with
      | none => none
      | some (content, empties, after) =>
        let closed := !after.isEmpty || terminated || empties ≠ 0
        let tail := match h.chomping with
          | .strip => []
          | .clip => if closed && !content.isEmpty then [10] else []
          | .keep => List.replicate (empties + if closed && !content.isEmpty then 1 else 0) 10
        some (blockBody h.folded content ++ tail,
          if after.isEmpty then [] else Text.join [10] after ++ if terminated then [10] else [])

end HackStack.Yaml
