import HackStack.Command
import HackStack.Text.Blank
import HackStack.Text.Quoted

/-!
# Decoding a command

A command has one to three words. The first word decides its kind and with it the number of words. What is
wrong with a text is decided in this order: too many words, an unknown first word, a wrong number of words, a
number that is not one.
-/

namespace HackStack.Command

inductive DecodeError where
  | empty
  | tooManyWords (text : Text) (count : Nat)
  | unexpectedArguments (text word : Text)
  | unknownWord (word : Text)
  | wrongArity (text : Text) (kind : Kind) (expected given : Nat)
  | badNumber (text word : Text)
  deriving DecidableEq, Repr

namespace DecodeError

/-- Whether the first word is unknown. All other faults make a command malformed. -/
def isUnknown : DecodeError → Bool
  | unknownWord _ => true
  | _ => false

def message : DecodeError → Text
  | empty => ascii "empty command: malformed command"
  | tooManyWords text count =>
    Text.quote text ++ ascii ": " ++ Text.decimal count ++ ascii " tokens, at most 3 allowed: malformed command"
  | unexpectedArguments text word =>
    Text.quote text ++ ascii ": " ++ word ++ ascii " takes no arguments: malformed command"
  | unknownWord word => Text.quote word ++ ascii ": unknown command"
  | wrongArity text kind expected given =>
    Text.quote text ++ ascii ": " ++ kind.name ++ ascii " expects " ++ Text.decimal expected ++
      ascii " arguments, got " ++ Text.decimal given ++ ascii ": malformed command"
  | badNumber text word =>
    Text.quote text ++ ascii ": " ++ Text.quote word ++ ascii " is not a non-negative integer: malformed command"

end DecodeError

def maxIndex : Nat := 2147483647

def readIndex? (word : Text) : Option Nat := (Text.readNat? word).filter (· ≤ maxIndex)

/-- The command with the given words. `text` is the text they come from, for messages. -/
def ofWords (text : Text) : List Text → Except DecodeError Command
  | [] => .error .empty
  | head :: args =>
    if 2 < args.length then .error (.tooManyWords text (args.length + 1))
    else if (Operator.ofName? head).isSome then
      if args.isEmpty then .ok (.arithmetic head) else .error (.unexpectedArguments text head)
    else if head = Kind.ret.name then
      if args.isEmpty then .ok .ret else .error (.unexpectedArguments text head)
    else
      match Kind.ofWord? head with
      | none => .error (.unknownWord head)
      | some kind =>
        match kind.hasIndex, args with
        | false, [name] => .ok (ofParts kind name 0)
        | true, [name, word] =>
          match readIndex? word with
          | some index => .ok (ofParts kind name index)
          | none => .error (.badNumber text word)
        | hasIndex, args => .error (.wrongArity text kind (if hasIndex then 2 else 1) args.length)

def decode (text : Text) : Except DecodeError Command := ofWords text (Text.words text)

end HackStack.Command
