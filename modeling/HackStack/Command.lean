import HackStack.Text.Numeral

/-!
# Commands of the stack machine

A program of the stack machine is a list of commands: operators on the top of the stack, moves between the
stack and a memory segment, and the flow and function commands. Kinds also have numeric codes, and a code
outside the nine known ones still names a kind, so that it can be shown in a message.
-/

namespace HackStack

inductive Kind where
  | arithmetic
  | push
  | pop
  | label
  | goto
  | ifGoto
  | function
  | ret
  | call
  | other (code : Int)
  deriving DecidableEq, Repr

namespace Kind

def ofCode (code : Int) : Kind :=
  match code with
  | 0 => arithmetic
  | 1 => push
  | 2 => pop
  | 3 => label
  | 4 => goto
  | 5 => ifGoto
  | 6 => function
  | 7 => ret
  | 8 => call
  | code => other code

def name : Kind → Text
  | arithmetic => ascii "arithmetic"
  | push => ascii "push"
  | pop => ascii "pop"
  | label => ascii "label"
  | goto => ascii "goto"
  | ifGoto => ascii "if"
  | function => ascii "function"
  | ret => ascii "return"
  | call => ascii "call"
  | other code => ascii "Kind(" ++ Text.signed code ++ ascii ")"

def hasIndex : Kind → Bool
  | push | pop | function | call => true
  | _ => false

def withArguments : List Kind := [push, pop, label, goto, ifGoto, function, call]

def ofWord? (word : Text) : Option Kind := withArguments.find? fun k => k.name == word

end Kind

/-- The operators, each on the one or two topmost values of the stack. -/
inductive Operator where
  | add
  | sub
  | neg
  | eq
  | gt
  | lt
  | and
  | or
  | not
  deriving DecidableEq, Repr

namespace Operator

def all : List Operator := [add, sub, neg, eq, gt, lt, and, or, not]

def name : Operator → Text
  | add => ascii "add"
  | sub => ascii "sub"
  | neg => ascii "neg"
  | eq => ascii "eq"
  | gt => ascii "gt"
  | lt => ascii "lt"
  | and => ascii "and"
  | or => ascii "or"
  | not => ascii "not"

def ofName? (word : Text) : Option Operator := all.find? fun op => op.name == word

theorem ofName?_name (op : Operator) : ofName? op.name = some op := by
  cases op <;> decide

theorem name_of_ofName? {word : Text} {op : Operator} (h : ofName? word = some op) : op.name = word := by
  have := List.find?_some h
  simpa using this

end Operator

/-- A command. An operator is kept by its word, which need not be a known one. -/
inductive Command where
  | arithmetic (word : Text)
  | push (segment : Text) (index : Int)
  | pop (segment : Text) (index : Int)
  | label (name : Text)
  | goto (name : Text)
  | ifGoto (name : Text)
  | function (name : Text) (locals : Int)
  | ret
  | call (name : Text) (arguments : Int)
  | other (code : Int) (name : Text)
  deriving DecidableEq, Repr

namespace Command

/-- The command of a kind with a primary argument and a number. Kinds without one of them drop it. -/
def ofParts (kind : Kind) (name : Text) (index : Int) : Command :=
  match kind with
  | .arithmetic => arithmetic name
  | .push => push name index
  | .pop => pop name index
  | .label => label name
  | .goto => goto name
  | .ifGoto => ifGoto name
  | .function => function name index
  | .ret => ret
  | .call => call name index
  | .other code => other code name

def kind : Command → Kind
  | arithmetic _ => .arithmetic
  | push _ _ => .push
  | pop _ _ => .pop
  | label _ => .label
  | goto _ => .goto
  | ifGoto _ => .ifGoto
  | function _ _ => .function
  | ret => .ret
  | call _ _ => .call
  | other code _ => .other code

def name? : Command → Option Text
  | arithmetic name | push name _ | pop name _ | label name | goto name | ifGoto name
  | function name _ | call name _ | other _ name => some name
  | ret => none

def index? : Command → Option Int
  | push _ index | pop _ index | function _ index | call _ index => some index
  | _ => none

/-- Asking a command for an argument that it does not carry. -/
inductive MissingArgument where
  | primary
  | number (kind : Kind)
  deriving DecidableEq, Repr

def MissingArgument.message : MissingArgument → Text
  | primary => ascii "return has no primary argument: invalid argument access"
  | number kind => kind.name ++ ascii " has no numeric argument: invalid argument access"

def primary (c : Command) : Except MissingArgument Text :=
  match c.name? with
  | some name => .ok name
  | none => .error .primary

def number (c : Command) : Except MissingArgument Int :=
  match c.index? with
  | some index => .ok index
  | none => .error (.number c.kind)

def toText (c : Command) : Text :=
  match c with
  | arithmetic word => word
  | ret => Kind.ret.name
  | push name index | pop name index | function name index | call name index =>
    c.kind.name ++ 32 :: (name ++ 32 :: Text.signed index)
  | label name | goto name | ifGoto name | other _ name => c.kind.name ++ 32 :: name

end Command

end HackStack
