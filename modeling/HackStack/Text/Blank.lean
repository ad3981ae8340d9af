import HackStack.Text

/-!
# White space

The white space characters are the six ASCII ones, U+0085, U+00A0, U+1680, U+2000 to U+200A, U+2028, U+2029,
U+202F, U+205F and U+3000. In a text they are byte patterns of one to three bytes. No pattern begins inside
another character, so a scan over bytes finds exactly the white space of the decoded text.
-/

namespace HackStack.Text

def isAsciiBlank (b : UInt8) : Bool := b == 32 || (9 ≤ b && b ≤ 13)

/-- The number of bytes of the white space character at the head of a text, 0 if there is none. -/
def blankWidth : Text → Nat
  | [] => 0
  | b :: rest =>
    if isAsciiBlank b then 1
    else match rest with
      | [] => 0
      | c :: rest =>
        if b == 0xC2 && (c == 0x85 || c == 0xA0) then 2
        else match rest with
          | [] => 0
          | d :: _ =>
            if (b == 0xE1 && c == 0x9A && d == 0x80)
              || (b == 0xE2 && c == 0x80 && ((0x80 ≤ d && d ≤ 0x8A) || d == 0xA8 || d == 0xA9 || d == 0xAF))
              || (b == 0xE2 && c == 0x81 && d == 0x9F)
              || (b == 0xE3 && c == 0x80 && d == 0x80)
            then 3 else 0

/-- Scans for words. `skip` bytes still belong to the white space found before them, `word` is the word that
is open and `done` holds the finished ones, both in reverse. -/
def wordsFrom (skip : Nat) (word : Text) (done : List Text) : Text → List Text
  | [] => (if word.isEmpty then done else word.reverse :: done).reverse
  | b :: rest =>
    match skip with
    | skip + 1 => wordsFrom skip word done rest
    | 0 =>
      match blankWidth (b :: rest) with
      | 0 => wordsFrom 0 (b :: word) done rest
      | n + 1 => wordsFrom n [] (if word.isEmpty then done else word.reverse :: done) rest

/-- The words of a text: its longest parts without white space, in order. -/
def words (t : Text) : List Text := wordsFrom 0 [] [] t

def compact (t : Text) : Text := (words t).flatten

def trimStart (t : Text) : Text := go 0 t
where
  /-- Drops `skip` bytes, then all white space that follows. -/
  go (skip : Nat) : Text → Text
    | [] => []
    | b :: rest =>
      match skip with
      | skip + 1 => go skip rest
      | 0 =>
        match blankWidth (b :: rest) with
        | 0 => b :: rest
        | n + 1 => go n rest

def trimEnd (t : Text) : Text := go 0 [] [] t
where
  /-- Scans with `skip` bytes left of a white space character, the bytes `kept` so far and the white space
  `pending` after them, both in reverse. -/
  go (skip : Nat) (kept pending : Text) : Text → Text
    | [] => kept.reverse
    | b :: rest =>
      match skip with
      | skip + 1 => go skip kept (b :: pending) rest
      | 0 =>
        match blankWidth (b :: rest) with
        | 0 => go 0 (b :: (pending ++ kept)) [] rest
        | n + 1 => go n kept (b :: pending) rest

def trim (t : Text) : Text := trimEnd (trimStart t)

end HackStack.Text
