import HackStack.CommandLine.Flag
import HackStack.CommandLine.Suggestion

/-!
# Invocations

The words of a command line divide into a command, its flags and its operands. Flags and operands may be mixed;
after two dashes there are only operands.
-/

namespace HackStack.CommandLine

def programName : Text := ascii "vmtranslate"

inductive Command where
  | run
  | translate
  | verify
  | completion
  | help
  deriving DecidableEq, Repr

namespace Command

def all : List Command := [run, translate, verify, completion, help]

def name : Command → Text
  | run => ascii "run"
  | translate => ascii "translate"
  | verify => ascii "verify"
  | completion => ascii "completion"
  | help => ascii "help"

def ofName? (t : Text) : Option Command := all.find? fun c => c.name == t

def flags : Option Command → List Flag
  | some run => [.steps, .stackBase, .config, .logLevel, .help]
  | some translate => [.output, .annotate, .staticSymbols, .config, .logLevel, .help]
  | some verify => [.report, .config, .logLevel, .help]
  | _ => [.config, .logLevel, .help]

def suggestionsFor (t : Text) : List Text :=
  (all.filter fun c => c != help && isSuggested t c.name).map name

end Command

inductive UsageError where
  | unknownCommand (name : Text) (suggestions : List Text)
  | badFlag (word : Text)
  | unknownFlag (name : Text)
  | unknownLetter (letter : UInt8) (group : Text)
  | missingValue (word : Text)
  | missingLetterValue (letter : UInt8)
  | invalidValue (flag : Flag) (value : Text) (problem : ValueProblem)
  | notOneOperand (count : Nat)
  | noOperand
  deriving DecidableEq, Repr

namespace UsageError

def suggestionText (names : List Text) : Text :=
  if names.isEmpty then []
  else ascii "\n\nDid you mean this?\n" ++ names.flatMap fun n => ascii "\t" ++ n ++ ascii "\n"

def message : UsageError → Text
  | unknownCommand name suggestions =>
    ascii "unknown command " ++ Text.quote name ++ ascii " for " ++ Text.quote programName ++
      suggestionText suggestions
  | badFlag word => ascii "bad flag syntax: " ++ word
  | unknownFlag name => ascii "unknown flag: --" ++ name
  | unknownLetter letter group =>
    ascii "unknown shorthand flag: " ++ Text.quoteLetter letter ++ ascii " in -" ++ group
  | missingValue word => ascii "flag needs an argument: " ++ word
  | missingLetterValue letter =>
    ascii "flag needs an argument: " ++ Text.quoteLetter letter ++ ascii " in -" ++ [letter]
  | invalidValue flag value problem =>
    ascii "invalid argument " ++ Text.quote value ++ ascii " for " ++ Text.quote flag.shown ++ ascii " flag: " ++
      problem.message value
  | notOneOperand count => ascii "accepts 1 arg(s), received " ++ Text.decimal count
  | noOperand => ascii "requires at least 1 arg(s), only received 0"

end UsageError

/-! ## Words -/

def dash : UInt8 := 45

def equalsSign : UInt8 := 61

inductive Word where
  | operand
  | endOfFlags
  | malformed
  | long (name : Text) (value : Option Text)
  | letters (group : Text)
  deriving DecidableEq, Repr

def Word.of (t : Text) : Word :=
  match t with
  | 45 :: 45 :: [] => .endOfFlags
  | 45 :: 45 :: b :: rest =>
    if b == dash || b == equalsSign then .malformed
    else match Text.cut? equalsSign (b :: rest) with
      | some (name, value) => .long name (some value)
      | none => .long (b :: rest) none
  | 45 :: b :: rest => .letters (b :: rest)
  | _ => .operand

def setFlag (o : Options) (f : Flag) (value : Text) : Except UsageError Options :=
  match o.set value f with
  | .ok o => .ok o
  | .error p => .error (.invalidValue f value p)

/-- The rest of a command line after a group of letters: nothing is open, or the last flag takes the next word
as its value. -/
inductive GroupEnd where
  | closed (o : Options)
  | awaits (o : Options) (flag : Flag) (letter : UInt8)

/-- Groups that begin so are for other tools and passed over. -/
def foreignGroup : Text := ascii "test."

/-- Sets the options of a group of letters. The letter of a flag with a value is followed by the value, with or
without an equals sign. -/
def setLetters (flags : List Flag) (o : Options) : Text → Except UsageError GroupEnd
  | [] => .ok (.closed o)
  | b :: rest =>
    if Text.startsWith foreignGroup (b :: rest) then .ok (.closed o)
    else match flags.find? fun f => f.letter? == some b with
      | none => .error (.unknownLetter b (b :: rest))
      | some f =>
        if rest.head? == some equalsSign && 1 < rest.length then (setFlag o f (rest.drop 1)).map .closed
        else if f.isSwitch then
          match setFlag o f switchedOn with
          | .ok o => setLetters flags o rest
          | .error e => .error e
        else if rest.isEmpty then .ok (.awaits o f b)
        else (setFlag o f rest).map .closed

/-- Reads words into options and operands, which are collected in reverse. -/
def readWords (flags : List Flag) (o : Options) (operands : List Text) :
    List Text → Except UsageError (Options × List Text)
  | [] => .ok (o, operands.reverse)
  | word :: rest =>
    match Word.of word with
    | .operand => readWords flags o (word :: operands) rest
    | .endOfFlags => .ok (o, operands.reverse ++ rest)
    | .malformed => .error (.badFlag word)
    | .long name value =>
      match flags.find? fun f => f.name == name with
      | none => .error (.unknownFlag name)
      | some f =>
        match value <|> (if f.isSwitch then some switchedOn else none), rest with
        | some v, rest =>
          match setFlag o f v with
          | .ok o => readWords flags o operands rest
          | .error e => .error e
        | none, [] => .error (.missingValue word)
        | none, v :: rest =>
          match setFlag o f v with
          | .ok o => readWords flags o operands rest
          | .error e => .error e
    | .letters group =>
      match setLetters flags o group with
      | .error e => .error e
      | .ok (.closed o) => readWords flags o operands rest
      | .ok (.awaits o f letter) =>
        match rest with
        | [] => .error (.missingLetterValue letter)
        | v :: rest =>
          match setFlag o f v with
          | .ok o => readWords flags o operands rest
          | .error e => .error e

/-! ## Commands -/

def takesNext (word : Text) : Bool :=
  !word.contains equalsSign && (Text.startsWith [dash, dash] word || (Text.startsWith [dash] word && word.length == 2))

/-- The first word that is neither a flag nor its value, and the words without it. The words before it are
collected in reverse. -/
def findCommand (before : List Text) : List Text → Option (Text × List Text)
  | [] => none
  | word :: rest =>
    if word == [dash, dash] then none
    else if takesNext word then
      match rest with
      | [] => none
      | value :: rest => if rest.isEmpty then none else findCommand (value :: word :: before) rest
    else if !word.isEmpty && !Text.startsWith [dash] word then some (word, before.reverse ++ rest)
    else findCommand (word :: before) rest

inductive Invocation where
  | help
  | run (o : Options) (input : Text)
  | translate (o : Options) (input : Text)
  | verify (o : Options) (paths : List Text)
  deriving DecidableEq, Repr

def Invocation.ofCommand (c : Option Command) (o : Options) (operands : List Text) :
    Except UsageError Invocation :=
  if o.help then .ok .help
  else match c, operands with
    | some .run, [input] => .ok (.run o input)
    | some .translate, [input] => .ok (.translate o input)
    | some .run, _ | some .translate, _ => .error (.notOneOperand operands.length)
    | some .verify, [] => .error .noOperand
    | some .verify, _ => .ok (.verify o operands)
    | some .completion, _ | some .help, _ | none, _ => .ok .help

def Invocation.read (args : List Text) : Except UsageError Invocation := do
  match findCommand [] args with
  | none =>
    let (o, operands) ← readWords (Command.flags none) {} [] args
    ofCommand none o operands
  | some (word, rest) =>
    match Command.ofName? word with
    | none => throw (.unknownCommand word (Command.suggestionsFor word))
    | some c =>
      let (o, operands) ← readWords (Command.flags (some c)) {} [] rest
      ofCommand (some c) o operands

end HackStack.CommandLine
