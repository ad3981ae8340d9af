import HackStack.Text

/-!
# Characters of a byte string

A text divides from left to right into UTF-8 characters and single bytes that begin no well-formed character.
-/

namespace HackStack

/-- A piece of a text: a character, or a byte that is part of none. -/
inductive Glyph where
  | char (code : Nat)
  | stray (byte : UInt8)
  deriving DecidableEq, Repr

namespace Glyph

def isTail (b : UInt8) : Bool := 0x80 ≤ b && b ≤ 0xBF

def tailBits (b : UInt8) : Nat := b.toNat % 64

/-- The piece that begins with byte `b` before `rest`, and how many bytes of `rest` belong to it. Overlong
forms, surrogates and values above U+10FFFF are not characters. -/
def atHead (b : UInt8) (rest : Text) : Glyph × Nat :=
  if b < 0x80 then (.char b.toNat, 0)
  else if b < 0xC2 then (.stray b, 0)
  else if b < 0xE0 then
    match rest with
    | c :: _ => if isTail c then (.char ((b.toNat % 32) * 64 + tailBits c), 1) else (.stray b, 0)
    | _ => (.stray b, 0)
  else if b < 0xF0 then
    match rest with
    | c :: d :: _ =>
      let code := (b.toNat % 16) * 4096 + tailBits c * 64 + tailBits d
      if isTail c && isTail d && 0x800 ≤ code && !(0xD800 ≤ code && code ≤ 0xDFFF) then (.char code, 2)
      else (.stray b, 0)
    | _ => (.stray b, 0)
  else if b < 0xF5 then
    match rest with
    | c :: d :: e :: _ =>
      let code := (b.toNat % 8) * 262144 + tailBits c * 4096 + tailBits d * 64 + tailBits e
      if isTail c && isTail d && isTail e && 0x10000 ≤ code && code ≤ 0x10FFFF then (.char code, 3)
      else (.stray b, 0)
    | _ => (.stray b, 0)
  else (.stray b, 0)

def encode (code : Nat) : Text :=
  if code < 0x80 then [code.toUInt8]
  else if code < 0x800 then [(0xC0 + code / 64).toUInt8, (0x80 + code % 64).toUInt8]
  else if code < 0x10000 then
    [(0xE0 + code / 4096).toUInt8, (0x80 + code / 64 % 64).toUInt8, (0x80 + code % 64).toUInt8]
  else
    [(0xF0 + code / 262144).toUInt8, (0x80 + code / 4096 % 64).toUInt8, (0x80 + code / 64 % 64).toUInt8,
      (0x80 + code % 64).toUInt8]

def bytes : Glyph → Text
  | .char code => encode code
  | .stray b => [b]

end Glyph

namespace Text

/-- Scans for pieces: `skip` bytes belong to the piece before them, `done` holds the pieces in reverse. -/
def glyphsFrom (skip : Nat) (done : List Glyph) : Text → List Glyph
  | [] => done.reverse
  | b :: rest =>
    match skip with
    | skip + 1 => glyphsFrom skip done rest
    | 0 => glyphsFrom (Glyph.atHead b rest).2 ((Glyph.atHead b rest).1 :: done) rest

def glyphs (t : Text) : List Glyph := glyphsFrom 0 [] t

def isUtf8 (t : Text) : Bool := (glyphs t).all fun
  | .char _ => true
  | .stray _ => false

end Text

end HackStack
