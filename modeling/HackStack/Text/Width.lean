import HackStack.Text.Glyph

/-!
# Width on a screen

Most characters take one column, ideographs and other wide characters take two, and control characters none.
-/

namespace HackStack.Text

def wideRanges : List (Nat × Nat) :=
  [(0x1100, 0x115F), (0x231A, 0x231B), (0x2329, 0x232A), (0x2E80, 0x303E), (0x3041, 0x33FF), (0x3400, 0x4DBF),
    (0x4E00, 0xA4C6), (0xA960, 0xA97C), (0xAC00, 0xD7A3), (0xF900, 0xFAFF), (0xFE10, 0xFE19), (0xFE30, 0xFE6B),
    (0xFF01, 0xFF60), (0xFFE0, 0xFFE6), (0x1F300, 0x1F64F), (0x1F680, 0x1F6FF), (0x1F900, 0x1F9FF),
    (0x20000, 0x3FFFD)]

def glyphWidth : Glyph → Nat
  | .stray _ => 1
  | .char code =>
    if code < 0x20 || (0x7F ≤ code && code < 0xA0) || code == 0xAD then 0
    else if wideRanges.any fun (lo, hi) => lo ≤ code && code ≤ hi then 2
    else 1

def width (t : Text) : Nat := (glyphs t).foldl (fun n g => n + glyphWidth g) 0

end HackStack.Text
