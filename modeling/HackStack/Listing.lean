import HackStack.Command.Decode

/-!
# Listings

A source is read line by line into a listing: the lines that hold a command, each with its number. A reader
hands out the commands of a listing one at a time.
-/

namespace HackStack

/-- A line of a source that holds a command, without remark and without white space at its ends. -/
structure Entry where
  line : Nat
  text : Text
  deriving DecidableEq, Repr

namespace Listing

/-- A line must be shorter than this many bytes. -/
def lineLimit : Nat := 65536

def dropReturn (t : Text) : Text := Text.dropEnding [13] t

def content (line : Text) : Text := Text.trim (Text.stripRemark (dropReturn line))

/-- Numbers lines from `first` on and keeps those of which `content` leaves something. `done` holds the
entries before, in reverse. -/
def numberedFrom (content : Text → Text) (first : Nat) (done : List Entry) : List Text → List Entry
  | [] => done.reverse
  | line :: rest =>
    numberedFrom content (first + 1)
      (if (content line).isEmpty then done else ⟨first, content line⟩ :: done) rest

/-- The lines of a text of which `content` leaves something, numbered from 1. -/
def numbered (content : Text → Text) (t : Text) : List Entry := numberedFrom content 1 [] (Text.lines t)

def read? (source : Text) : Option (List Entry) :=
  if (Text.lines source).any fun line => lineLimit ≤ line.length then none
  else some (numbered content source)

end Listing

/-- A position in a listing: the entries handed out, last first, and those to come. -/
structure Reader where
  past : List Entry
  rest : List Entry
  deriving DecidableEq, Repr

namespace Reader

def start (entries : List Entry) : Reader := ⟨[], entries⟩

def size (r : Reader) : Nat := r.past.length + r.rest.length

def hasNext (r : Reader) : Bool := !r.rest.isEmpty

def lineNumber (r : Reader) : Nat :=
  match r.past with
  | [] => 0
  | entry :: _ => entry.line

inductive Item where
  | command (c : Command)
  | invalid (line : Nat) (e : Command.DecodeError)
  | endOfListing
  deriving DecidableEq, Repr

/-- Hands out the next command. The reader moves on even if the line is no command. -/
def next (r : Reader) : Item × Reader :=
  match r.rest with
  | [] => (.endOfListing, r)
  | entry :: rest =>
    (match Command.decode entry.text with
      | .ok c => .command c
      | .error e => .invalid entry.line e, ⟨entry :: r.past, rest⟩)

end Reader

end HackStack
