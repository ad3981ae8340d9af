import HackStack.Text.Numeral
import HackStack.Text.Quoted

/-!
# Flags

The flags of the commands and the options they set. A switch may stand without a value and is then turned on;
every other flag takes a value.
-/

namespace HackStack.CommandLine

inductive Flag where
  | config
  | logLevel
  | steps
  | stackBase
  | output
  | annotate
  | staticSymbols
  | report
  | help
  deriving DecidableEq, Repr

namespace Flag

def name : Flag → Text
  | config => ascii "config"
  | logLevel => ascii "log-level"
  | steps => ascii "steps"
  | stackBase => ascii "stack-base"
  | output => ascii "output"
  | annotate => ascii "annotate"
  | staticSymbols => ascii "static-symbols"
  | report => ascii "report"
  | help => ascii "help"

def letter? : Flag → Option UInt8
  | output => some 111
  | help => some 104
  | _ => none

def isSwitch : Flag → Bool
  | annotate | staticSymbols | help => true
  | _ => false

def shown (f : Flag) : Text :=
  match f.letter? with
  | some letter => [45, letter] ++ ascii ", --" ++ f.name
  | none => ascii "--" ++ f.name

end Flag

inductive ValueProblem where
  | integer (e : Text.NumeralError)
  | truthValue
  deriving DecidableEq, Repr

def ValueProblem.message (value : Text) : ValueProblem → Text
  | integer .malformed => ascii "strconv.ParseInt: parsing " ++ Text.quote value ++ ascii ": invalid syntax"
  | integer .outOfRange => ascii "strconv.ParseInt: parsing " ++ Text.quote value ++ ascii ": value out of range"
  | truthValue => ascii "strconv.ParseBool: parsing " ++ Text.quote value ++ ascii ": invalid syntax"

/-- The options that flags have set. For those that replace a setting it matters whether they were given. -/
structure Options where
  config : Text := []
  logLevel : Option Text := none
  steps : Option Int := none
  stackBase : Option Int := none
  output : Text := []
  annotate : Option Bool := none
  staticSymbols : Option Bool := none
  report : Text := []
  help : Bool := false
  deriving DecidableEq, Repr

def switchedOn : Text := ascii "true"

def readInteger (t : Text) : Except ValueProblem Int :=
  match Text.readInt t with
  | .ok i => .ok i
  | .error e => .error (.integer e)

def readTruthValue (t : Text) : Except ValueProblem Bool :=
  let isOne (words : List String) : Bool := words.any fun w => ascii w == t
  if isOne ["1", "t", "T", "true", "TRUE", "True"] then .ok true
  else if isOne ["0", "f", "F", "false", "FALSE", "False"] then .ok false
  else .error .truthValue

/-- Sets the option of a flag. A later value replaces an earlier one. -/
def Options.set (o : Options) (value : Text) : Flag → Except ValueProblem Options
  | .config => .ok { o with config := value }
  | .logLevel => .ok { o with logLevel := some value }
  | .steps => (readInteger value).map fun i => { o with steps := some i }
  | .stackBase => (readInteger value).map fun i => { o with stackBase := some i }
  | .output => .ok { o with output := value }
  | .annotate => (readTruthValue value).map fun b => { o with annotate := some b }
  | .staticSymbols => (readTruthValue value).map fun b => { o with staticSymbols := some b }
  | .report => .ok { o with report := value }
  | .help => (readTruthValue value).map fun b => { o with help := b }

end HackStack.CommandLine
