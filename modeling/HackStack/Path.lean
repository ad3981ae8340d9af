import HackStack.Text

/-!
# Paths

A path is a text whose parts are divided by slashes. Everything here works on the text alone and looks at no
file.
-/

namespace HackStack.Path

def separator : UInt8 := 47

def here : Text := [46]

def above : Text := [46, 46]

def isAbsolute (path : Text) : Bool := path.head? == some separator

def parts (path : Text) : List Text := Text.splitAt separator path

/-- The last part of a path, without slashes at its end. It is a dot for the empty path and a slash for a path
of slashes only. -/
def base (path : Text) : Text :=
  if path.isEmpty then here
  else
    match path.reverse.dropWhile (· == separator) with
    | [] => [separator]
    | stem => (stem.takeWhile (· != separator)).reverse

/-- The end of the last part from its last dot on, or nothing. -/
def extension (path : Text) : Text :=
  let last := path.reverse.takeWhile (· != separator)
  if last.contains 46 then 46 :: (last.takeWhile (· != 46)).reverse else []

/-- Puts a part on top of the parts before it: empty parts and dots vanish, and two dots take back a part. -/
def pushPart (absolute : Bool) (stack : List Text) (part : Text) : List Text :=
  if part.isEmpty || part == here then stack
  else if part == above then
    match stack with
    | [] => if absolute then [] else [above]
    | top :: rest => if top == above then above :: stack else rest
  else part :: stack

/-- The shortest path with the same meaning. -/
def clean (path : Text) : Text :=
  let kept := ((parts path).foldl (pushPart (isAbsolute path)) []).reverse
  if isAbsolute path then separator :: Text.join [separator] kept
  else if kept.isEmpty then here
  else Text.join [separator] kept

def join (dir name : Text) : Text :=
  match [dir, name].filter fun p => !p.isEmpty with
  | [] => []
  | ps => clean (Text.join [separator] ps)

def splitLast (path : Text) : Text × Text :=
  let last := (path.reverse.takeWhile (· != separator)).reverse
  (path.take (path.length - last.length), last)

end HackStack.Path
