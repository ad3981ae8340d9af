import HackStack.Text.Letter

/-!
# Suggestions

A name that is no command may be a command mistyped. Commands are suggested if they begin with the name or are
at most two single-byte edits away from it, case apart.
-/

namespace HackStack.CommandLine

/-- One row of the table of edit distances from the row above. `left` is the entry just made, and the entries
of the row above begin with the one above it. Equal bytes cost nothing, every other edit costs one. -/
def nextRow (b : UInt8) (left : Nat) : Text → List Nat → List Nat
  | c :: t, diagonal :: up :: above =>
    let entry := if b == c then diagonal else min (min up left) diagonal + 1
    entry :: nextRow b entry t (up :: above)
  | _, _ => []

def editDistance (s t : Text) : Nat :=
  let rows := s.foldl (fun row b => (row.headD 0 + 1) :: nextRow b (row.headD 0 + 1) t row) (List.range (t.length + 1))
  rows.getLastD 0

def editLimit : Nat := 2

def isSuggested (name command : Text) : Bool :=
  editDistance (Text.lower name) command ≤ editLimit || Text.startsWith (Text.lower name) command

end HackStack.CommandLine
