import HackStack.Text.Glyph
import HackStack.Text.Numeral
import HackStack.Text.Printable

/-!
# Quoted text

Messages show a text between double quotes. Printable characters stand for themselves; a quote, a backslash
and what cannot be printed are written as escapes, so that different texts have different quoted forms.
-/

namespace HackStack.Text

def shortEscape? (code : Nat) : Option UInt8 :=
  match code with
  | 7 => some 97
  | 8 => some 98
  | 9 => some 116
  | 10 => some 110
  | 11 => some 118
  | 12 => some 102
  | 13 => some 114
  | _ => none

def quoteGlyph : Glyph → Text
  | .stray b => ascii "\\x" ++ hex 2 b.toNat
  | .char code =>
    if code == 34 || code == 92 then [92, code.toUInt8]
    else if isPrintable code then Glyph.encode code
    else match shortEscape? code with
      | some letter => [92, letter]
      | none =>
        if code < 0x80 then ascii "\\x" ++ hex 2 code
        else if code < 0x10000 then ascii "\\u" ++ hex 4 code
        else ascii "\\U" ++ hex 8 code

def quote (t : Text) : Text := 34 :: ((glyphs t).flatMap quoteGlyph ++ [34])

def quoteLetter (b : UInt8) : Text :=
  let shown :=
    if b == 39 then [92, 39]
    else if b == 34 then [34]
    else quoteGlyph (.char b.toNat)
  39 :: (shown ++ [39])

end HackStack.Text
