import HackStack.Asm.Instruction

/-!
# Lines of assembly

Generated assembly is a list of lines: remarks, label declarations and instructions.
-/

namespace HackStack.Asm

inductive Line where
  | remark (text : Text)
  | label (name : Text)
  | instruction (i : Instruction)
  deriving DecidableEq, Repr

namespace Line

def toText : Line → Text
  | remark text => ascii "// " ++ text
  | label name => 40 :: (name ++ [41])
  | instruction i => i.toText

end Line

def render (lines : List Line) : Text := lines.flatMap fun l => l.toText ++ [Text.lineFeed]

theorem render_append (xs ys : List Line) : render (xs ++ ys) = render xs ++ render ys := by
  simp [render]

end HackStack.Asm
