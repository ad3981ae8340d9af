import HackStack.FileTree
import HackStack.Machine.Core
import HackStack.Segment

/-!
# Errors

An error is a cause together with the places and tasks it happened in. The message names those first, from the
outside in, and the cause last.
-/

namespace HackStack

inductive Cause where
  | undecodable (e : Command.DecodeError)
  | rejected (r : Rejection)
  | notSource
  | unassemblable (e : Asm.SourceError)
  | trapped (t : Trap)
  | badAddress
  | stepLimit
  | invalidSetting
  | lineTooLong
  | sinkFailed
  | badPattern
  | file (e : FileError)
  | badDocument
  | namelessCase (index : Nat)
  | unknownExpectation (caseName errorName : Text)
  | failedCases (failed total : Nat)
  deriving DecidableEq, Repr

def Cause.message : Cause → Text
  | undecodable e => e.message
  | rejected r => r.message
  | notSource => ascii "not a .vm source"
  | unassemblable e => e.message
  | trapped t => t.message
  | badAddress => ascii "memory access out of range"
  | stepLimit => ascii "step limit reached"
  | invalidSetting => ascii "invalid configuration"
  | lineTooLong => ascii "bufio.Scanner: token too long"
  | sinkFailed => ascii "sink failed"
  | badPattern => ascii "syntax error in pattern"
  | file e => e.message
  | badDocument => ascii "yaml: invalid document"
  | namelessCase index => ascii "case " ++ Text.decimal index ++ ascii " has no name"
  | unknownExpectation caseName errorName =>
    ascii "case " ++ caseName ++ ascii " expects unknown error " ++ Text.quote errorName
  | failedCases failed total =>
    Text.decimal failed ++ ascii " of " ++ Text.decimal total ++ ascii " cases failed"

inductive Context where
  | line (number : Nat)
  | file (name : Text)
  | writing (command : Text)
  | task (description : Text)
  deriving DecidableEq, Repr

def Context.toText : Context → Text
  | line number => ascii "line " ++ Text.decimal number
  | file name => name
  | writing command => ascii "write " ++ Text.quote command
  | task description => description

/-- A cause with its contexts, the outermost first. -/
structure Error where
  context : List Context := []
  cause : Cause
  deriving DecidableEq, Repr

namespace Error

def within (c : Context) (e : Error) : Error := { e with context := c :: e.context }

def during (description : String) (e : Error) : Error := e.within (.task (ascii description))

def message (e : Error) : Text :=
  e.context.foldr (fun c rest => c.toText ++ ascii ": " ++ rest) e.cause.message

end Error

def FileError.toError (e : FileError) : Error := { cause := .file e }

def CoreFault.toError : CoreFault → Error
  | .stepLimit => { cause := .stepLimit }
  | .trapped t => { cause := .trapped t }

/-- The error of a run that has ended and did not halt. -/
def Machine.Outcome.error? (m : Machine) : Machine.Outcome → Option Error
  | .halted | .unfinished => none
  | .trapped t => some { cause := .trapped t }
  | .stepLimit =>
    some { context := [.task (ascii "after " ++ Text.decimal m.steps ++ ascii " steps at pc " ++
      Text.decimal m.pc.toNat)], cause := .stepLimit }

end HackStack
