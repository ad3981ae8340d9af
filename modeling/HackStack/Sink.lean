import HackStack.Error

/-!
# Sinks

A sink takes the text of one command at a time, and may refuse it. The memory sink keeps what it takes; it can
be told which writes to refuse. The file sink collects text in a buffer and passes it on to a file or to the
standard output whenever the buffer is full.
-/

namespace HackStack

/-- A type of sinks. A write gives the sink after it, and an error if the text was refused. -/
class Sink (σ : Type) where
  write : σ → Text → σ × Option Error

/-- A sink in memory. Writes are numbered from 1, and those that `fails` names are refused. The texts taken
are kept with the last one first. -/
structure MemorySink where
  fails : Nat → Bool := fun _ => false
  calls : Nat := 0
  taken : List Text := []

namespace MemorySink

def write (s : MemorySink) (t : Text) : MemorySink × Option Error :=
  if s.fails (s.calls + 1) then ({ s with calls := s.calls + 1 }, some { cause := .sinkFailed })
  else ({ s with calls := s.calls + 1, taken := t :: s.taken }, none)

def text (s : MemorySink) : Text := s.taken.reverse.flatten

instance : Sink MemorySink := ⟨write⟩

end MemorySink

inductive Destination where
  | standardOutput
  | file (location : Location) (path : Text)
  deriving DecidableEq, Repr

/-- A sink with a buffer. After a failure it refuses everything. -/
structure FileSink where
  tree : FileTree
  destination : Destination
  printed : Text := []
  buffer : Text := []
  failure : Option FileError := none

namespace FileSink

def bufferSize : Nat := 4096

/-- Opens a sink on a path. A minus sign stands for the standard output, anything else for a file, which is
made or emptied. -/
def openAt (tree : FileTree) (path : Text) : Except FileError FileSink :=
  if path == [45] then .ok { tree := tree, destination := .standardOutput }
  else match tree.create path with
    | .ok (location, tree) => .ok { tree := tree, destination := .file location path }
    | .error e => .error e

def pass (s : FileSink) (t : Text) : FileSink :=
  match s.destination with
  | .standardOutput => { s with printed := s.printed ++ t }
  | .file location path =>
    match s.tree.append location path t with
    | .ok tree => { s with tree := tree }
    | .error e => { s with failure := some e }

/-- Passes on as much as keeps the rest within the buffer: the full buffer first, then a rest that is larger
than the buffer. -/
def spill (s : FileSink) (t : Text) : FileSink :=
  let first := if s.buffer.isEmpty then t else (s.buffer ++ t).take bufferSize
  let rest := (s.buffer ++ t).drop first.length
  let s := s.pass first
  if s.failure.isSome then s
  else if rest.length ≤ bufferSize then { s with buffer := rest }
  else { s.pass rest with buffer := [] }

def write (s : FileSink) (t : Text) : FileSink × Option Error :=
  let s :=
    if s.failure.isSome then s
    else if s.buffer.length + t.length ≤ bufferSize then { s with buffer := s.buffer ++ t }
    else s.spill t
  (s, s.failure.map FileError.toError)

def close (s : FileSink) : FileSink × Option Error :=
  let s := if s.failure.isSome || s.buffer.isEmpty then s else { s.pass s.buffer with buffer := [] }
  (s, s.failure.map FileError.toError)

instance : Sink FileSink := ⟨write⟩

end FileSink

end HackStack
