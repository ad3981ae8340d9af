import HackStack.Command
import HackStack.Text.Quoted

/-!
# Memory segments

A segment is a part of memory that push and pop reach by an index. Some have their base in a pointer register,
some are fixed, and constants exist only as values.
-/

namespace HackStack

inductive Segment where
  | constant
  | locals
  | arguments
  | this
  | that
  | temp
  | pointer
  | statics
  deriving DecidableEq, Repr

namespace Segment

def all : List Segment := [constant, locals, arguments, this, that, temp, pointer, statics]

def name : Segment → Text
  | constant => ascii "constant"
  | locals => ascii "local"
  | arguments => ascii "argument"
  | this => ascii "this"
  | that => ascii "that"
  | temp => ascii "temp"
  | pointer => ascii "pointer"
  | statics => ascii "static"

def ofName? (word : Text) : Option Segment := all.find? fun s => s.name == word

theorem ofName?_name (s : Segment) : ofName? s.name = some s := by
  cases s <;> decide

theorem name_of_ofName? {word : Text} {s : Segment} (h : ofName? word = some s) : s.name = word := by
  have := List.find?_some h
  simpa using this

def staticBase : Nat := 16

/-- The number of static cells, which end below the usual stack base. -/
def staticSize : Nat := 240

def size : Segment → Nat
  | constant | locals | arguments | this | that => 32768
  | temp => 8
  | pointer => 2
  | statics => staticSize

def isReadOnly : Segment → Bool
  | constant => true
  | _ => false

end Segment

inductive Rejection where
  | notOperator (word : Text)
  | notAccess (kind : Kind)
  | unknownSegment (name : Text)
  | readOnly (segment : Segment)
  | outOfRange (segment : Segment) (index : Int)
  | noSlot (index : Nat) (file : Text) (slot : Nat)
  deriving DecidableEq, Repr

def Rejection.isOperator : Rejection → Bool
  | notOperator _ => true
  | _ => false

def Rejection.message : Rejection → Text
  | notOperator word => Text.quote word ++ ascii ": not an arithmetic command"
  | notAccess kind => kind.name ++ ascii ": not a push/pop command"
  | unknownSegment name => ascii "unknown segment " ++ Text.quote name ++ ascii ": not a push/pop command"
  | readOnly segment => ascii "cannot pop into " ++ segment.name ++ ascii ": not a push/pop command"
  | outOfRange segment index =>
    segment.name ++ ascii " index " ++ Text.signed index ++ ascii " out of range [0, " ++
      Text.decimal segment.size ++ ascii "): not a push/pop command"
  | noSlot index file slot =>
    ascii "static " ++ Text.decimal index ++ ascii " of " ++ file ++ ascii " needs slot " ++ Text.decimal slot ++
      ascii ", only " ++ Text.decimal Segment.staticSize ++ ascii " slots exist: not a push/pop command"

end HackStack
