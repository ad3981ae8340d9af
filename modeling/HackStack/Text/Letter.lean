import HackStack.Text.Glyph
import HackStack.Text.Numeral

/-!
# Lower case

Names in settings and commands are compared without regard to case. They are ASCII words, so a text has to be
brought to lower case only as far as its letters can become ASCII: besides the capitals of ASCII these are the
dotted capital I and the sign for kelvin.
-/

namespace HackStack.Text

def lowerCode (code : Nat) : Nat :=
  if 65 ≤ code && code ≤ 90 then code + 32
  else if code == 0x130 then 105
  else if code == 0x212A then 107
  else code

/-- A text in lower case, as far as ASCII letters come out. A stray byte becomes the replacement character. -/
def lower (t : Text) : Text :=
  (glyphs t).flatMap fun
    | .char code => Glyph.encode (lowerCode code)
    | .stray _ => Glyph.encode 0xFFFD

end HackStack.Text
