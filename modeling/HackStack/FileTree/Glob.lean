import HackStack.FileTree
import HackStack.Path.Pattern

/-!
# Finding files by pattern

Every part of a path may be a pattern. Directories that do not exist hold no matches.
-/

namespace HackStack.FileTree

/-- The directory part of a pattern, without the slash at its end. -/
def patternDir (dir : Text) : Text :=
  if dir.isEmpty then Path.here else if dir == [Path.separator] then dir else dir.dropLast

def matchesIn (t : FileTree) (dir : Text) (pieces : List Path.PatternPiece) : List Text :=
  match t.entryAt dir with
  | .ok (l, .directory) =>
    ((t.namesIn l).filter fun (name, _) => Path.matchesName pieces name).map fun (name, _) => Path.join dir name
  | _ => []

/-- The paths that match a pattern, directory by directory, `none` if the pattern is malformed. -/
def glob? (t : FileTree) (pattern : Text) : Option (List Text) := go pattern.length pattern
where
  /-- Every step takes at least one byte off the pattern. -/
  go (fuel : Nat) (pattern : Text) : Option (List Text) :=
    match Path.pattern? pattern with
    | none => none
    | some _ =>
      if !Path.hasMeta pattern then some (if t.exists? pattern then [pattern] else [])
      else
        match Path.pattern? (Path.splitLast pattern).2, fuel with
        | none, _ => none
        | some pieces, 0 => some (matchesIn t (patternDir (Path.splitLast pattern).1) pieces)
        | some pieces, fuel + 1 =>
          let dir := patternDir (Path.splitLast pattern).1
          if Path.hasMeta dir then (go fuel dir).map fun dirs => dirs.flatMap fun d => matchesIn t d pieces
          else some (matchesIn t dir pieces)

end HackStack.FileTree
