import HackStack.Yaml

/-!
# Reading YAML documents

A document is read by descent over its structure. In blocks the columns of the first words of lines decide
what belongs together; inside brackets and braces columns have no meaning. Anchors, tags and explicit keys are
not part of the format that settings and suites are written in.
-/

namespace HackStack.Yaml

structure Cursor where
  column : Nat
  rest : Text
  deriving DecidableEq, Repr

/-- Goes on to the next word, over blanks, remarks and line ends. The result says whether a line end was
crossed. A tab is passed over only where `tabs` allows it; it never counts as indentation. -/
def skipFrom (tabs crossed remark : Bool) (column : Nat) : Text → Option (Bool × Cursor)
  | [] => some (crossed, ⟨column, []⟩)
  | b :: rest =>
    if b == 10 then skipFrom false true false 0 rest
    else if remark then skipFrom tabs crossed true column rest
    else if b == 32 then skipFrom tabs crossed false (column + 1) rest
    else if b == 35 then skipFrom tabs crossed true column rest
    else if b == 9 then if tabs then skipFrom tabs crossed false (column + 1) rest else none
    else some (crossed, ⟨column, b :: rest⟩)

/-- Goes on behind a value that must be the last thing on its line. -/
def endOfValue (rest : Text) : Option Cursor :=
  match skipFrom true false false 0 rest with
  | some (crossed, c) => if crossed || c.rest.isEmpty then some c else none
  | none => none

def flowSkip (remark : Bool) : Text → Text
  | [] => []
  | b :: rest =>
    if b == 10 then flowSkip false rest
    else if remark then flowSkip true rest
    else if b == 32 || b == 9 then flowSkip false rest
    else if b == 35 then flowSkip true rest
    else b :: rest

def keyLimit : Nat := 1024

def fitsKey (t : Text) : Bool := !t.contains 10 && t.length ≤ keyLimit

mutual

def flowNode (fuel : Nat) (t : Text) : Option (Node × Text) :=
  match fuel with
  | 0 => none
  | fuel + 1 =>
    match t with
    | 91 :: rest => flowSequence fuel [] rest
    | 123 :: rest => flowMapping fuel [] rest
    | 34 :: _ | 39 :: _ => (quoted t).map fun (value, rest) => (.scalar value false, rest)
    | t =>
      if startsPlain true t then (plain true 0 t).map fun (value, rest) => (.scalar value true, rest)
      else none

/-- Reads what may follow a key in a flow collection: a colon and a value. The key begins the text `key`. -/
def flowValue (fuel : Nat) (key t : Text) : Option (Option Node × Text) :=
  match fuel with
  | 0 => none
  | fuel + 1 =>
    match flowSkip false t with
    | 58 :: rest =>
      if !fitsKey (key.take (key.length - (rest.length + 1))) then none
      else match flowSkip false rest with
      | [] => none
      | b :: rest =>
        if b == 44 || b == 93 || b == 125 then some (some .absent, b :: rest)
        else (flowNode fuel (b :: rest)).map fun (value, rest) => (some value, rest)
    | rest => some (none, rest)

def flowSequence (fuel : Nat) (done : List Node) (t : Text) : Option (Node × Text) :=
  match fuel with
  | 0 => none
  | fuel + 1 =>
    match flowSkip false t with
    | 93 :: rest => some (.sequence done.reverse, rest)
    | t => do
      let (key, rest) ← flowNode fuel t
      let (value, rest) ← flowValue fuel t rest
      let item := match value with
        | some value => .mapping [(key, value)]
        | none => key
      match flowSkip false rest with
      | 44 :: rest => flowSequence fuel (item :: done) rest
      | 93 :: rest => return (.sequence (item :: done).reverse, rest)
      | _ => none

def flowMapping (fuel : Nat) (done : List (Node × Node)) (t : Text) : Option (Node × Text) :=
  match fuel with
  | 0 => none
  | fuel + 1 =>
    match flowSkip false t with
    | 125 :: rest => some (.mapping done.reverse, rest)
    | t => do
      let (key, rest) ← flowNode fuel t
      let (value, rest) ← flowValue fuel t rest
      let pair := (key, value.getD .absent)
      match flowSkip false rest with
      | 44 :: rest => flowMapping fuel (pair :: done) rest
      | 125 :: rest => return (.mapping (pair :: done).reverse, rest)
      | _ => none

end

def isItem : Text → Bool
  | 45 :: rest => blankNext rest
  | _ => false

def blockKey (t : Text) : Option (Node × Text) := do
  let (key, rest) ←
    if t.head? == some 34 || t.head? == some 39 then
      (quoted t).map fun (value, rest) => (Node.scalar value false, rest)
    else if startsPlain false t && !isItem t then
      match plainPart false [] [] t with
      | (value, rest) => some (.scalar value true, rest)
    else none
  match rest.dropWhile fun b => b == 32 || b == 9 with
  | 58 :: rest =>
    if blankNext rest && fitsKey (t.take (t.length - (rest.length + 1))) then some (key, rest) else none
  | _ => none

def isBlock (t : Text) : Bool := t.head? == some 124 || t.head? == some 62

mutual

/-- Reads a node at a cursor, inside a collection at column `parent`. A node behind the colon of a pair, on the
same line, is no block collection. The result is the node and the next word on a later line. -/
def node (fuel : Nat) (parent : Option Nat) (behindColon : Bool) (c : Cursor) : Option (Node × Cursor) :=
  match fuel with
  | 0 => none
  | fuel + 1 =>
    let least := match parent with
      | some p => p + 1
      | none => 0
    if isItem c.rest then if behindColon then none else blockSequence fuel c.column [] c
    else if (blockKey c.rest).isSome then if behindColon then none else blockMapping fuel c.column [] c
    else
      match c.rest with
      | 91 :: _ | 123 :: _ => do
        let (n, rest) ← flowNode fuel c.rest
        return (n, ← endOfValue rest)
      | 34 :: _ | 39 :: _ => do
        let (value, rest) ← quoted c.rest
        return (.scalar value false, ← endOfValue rest)
      | 124 :: _ | 62 :: _ => do
        let (value, rest) ← block parent c.rest
        let (_, next) ← skipFrom false true false 0 rest
        return (.scalar value false, next)
      | t =>
        if startsPlain false t then do
          let (value, rest) ← plain false least t
          return (.scalar value true, ← endOfValue rest)
        else none

def blockMapping (fuel column : Nat) (done : List (Node × Node)) (c : Cursor) : Option (Node × Cursor) :=
  match fuel with
  | 0 => none
  | fuel + 1 =>
    if c.rest.isEmpty || c.column < column then some (.mapping done.reverse, c)
    else if column < c.column then none
    else do
      let (key, rest) ← blockKey c.rest
      let (crossed, v) ← skipFrom true false false 0 rest
      if v.rest.isEmpty then return (.mapping ((key, .absent) :: done).reverse, v)
      else if !crossed then
        let (value, next) ← node fuel (some column) true v
        blockMapping fuel column ((key, value) :: done) next
      else if column < v.column || (v.column = column && isBlock v.rest) then
        let (value, next) ← node fuel (some column) false v
        blockMapping fuel column ((key, value) :: done) next
      else if v.column = column && isItem v.rest then
        let (value, next) ← blockSequence fuel column [] v
        blockMapping fuel column ((key, value) :: done) next
      else blockMapping fuel column ((key, .absent) :: done) v

def blockSequence (fuel column : Nat) (done : List Node) (c : Cursor) : Option (Node × Cursor) :=
  match fuel with
  | 0 => none
  | fuel + 1 =>
    if c.rest.isEmpty || c.column < column || (c.column = column && !isItem c.rest) then
      some (.sequence done.reverse, c)
    else if column < c.column then none
    else do
      let (crossed, v) ← skipFrom false false false (c.column + 1) (c.rest.drop 1)
      if v.rest.isEmpty then return (.sequence (.absent :: done).reverse, v)
      else if !crossed || column < v.column then
        let (item, next) ← node fuel (some column) false v
        blockSequence fuel column (item :: done) next
      else blockSequence fuel column (.absent :: done) v

end

def isAllowed : Glyph → Bool
  | .stray _ => false
  | .char code =>
    code == 9 || code == 10 || code == 13 || (0x20 ≤ code && code ≤ 0x7E) || code == 0x85 ||
      (0xA0 ≤ code && code ≤ 0xFFFD) || 0x10000 ≤ code

def unifyBreaks (done : Text) : Text → Text
  | [] => done.reverse
  | 13 :: 10 :: rest => unifyBreaks (10 :: done) rest
  | 13 :: rest => unifyBreaks (10 :: done) rest
  | b :: rest => unifyBreaks (b :: done) rest

/-- Whether a line is a document mark: three equal signs of a kind at its front. -/
def isMark (sign : UInt8) (line : Text) : Bool :=
  Text.startsWith [sign, sign, sign] line && blankNext (line.drop 3)

/-- Whether a line says nothing before a document: it is blank, a remark or a directive. -/
def isPreamble (line : Text) : Bool :=
  isSpaces line || (line.dropWhile (· == 32)).head? == some 35 || line.head? == some 37

/-- The lines of the first document in a stream. A mark after it ends its last line. A stream cannot begin with
the mark that ends a document. -/
def firstDocument? (lines : List Text) : Option (List Text) :=
  let body : Option (List Text) := match lines.dropWhile isPreamble with
    | first :: rest =>
      if isMark 45 first then some ((ascii "   " ++ first.drop 3) :: rest)
      else if isMark 46 first then none
      else some lines
    | [] => some lines
  body.map fun body =>
    let (document, after) := body.span fun line => !(isMark 45 line || isMark 46 line)
    if after.isEmpty then document else document ++ [[]]

def dropOrderMark : Text → Text
  | 0xEF :: 0xBB :: 0xBF :: rest => rest
  | t => t

def opens (c : Cursor) : Bool :=
  match c.rest with
  | 34 :: _ | 39 :: _ => (quoted c.rest).isSome
  | 124 :: _ | 62 :: _ => (block none c.rest).isSome
  | b :: _ => startsPlain false c.rest || isFlowMark b || isItem c.rest || b == 58
  | [] => true

/-- Whether a document may end before a word: with a collection that stands further right, or with a value
that is complete. -/
def endsBefore (start next : Cursor) : Bool :=
  next.rest.isEmpty || (opens next &&
    (next.column < start.column || !(isItem start.rest || (blockKey start.rest).isSome)))

/-- Whether a word on the line of a flow collection ends the document: it neither makes the collection a key nor
begins a block. -/
def endsLine (t : Text) : Bool := t.head? != some 58 && !isItem t && (blockKey t).isNone

/-- Reads the node of a document. What follows a flow collection is left unread. -/
def rootNode (t : Text) (c : Cursor) : Option Node :=
  match c.rest with
  | 91 :: _ | 123 :: _ => do
    let (n, rest) ← flowNode (4 * t.length + 16) c.rest
    let (crossed, next) ← skipFrom true false false 0 rest
    if opens next && (crossed || endsLine next.rest) then some n else none
  | _ => do
    let (n, next) ← node (4 * t.length + 16) none false c
    if endsBefore c next then some n else none

/-- Reads the first document of a text, absent if it is empty. The result is `none` if the text is malformed. -/
def parse? (source : Text) : Option Node := do
  let source := dropOrderMark source
  if !(Text.glyphs source).all isAllowed then none
  let lines ← firstDocument? (Text.lines (unifyBreaks [] source))
  let t := Text.join [10] lines
  let (_, c) ← skipFrom false true false 0 t
  if c.rest.isEmpty then return .absent
  rootNode t c

end HackStack.Yaml
