import HackStack.Decimal.Shortest
import HackStack.Error
import HackStack.Log
import HackStack.Text.Letter
import HackStack.Yaml.Decode

/-!
# Settings

The settings shared by the commands: how sources are translated, what is reported, and the computer that
programs run on. They can be read from a YAML document, and are checked before they are used.
-/

namespace HackStack

/-- The level with a name. Case and white space around it do not count, and no name at all means warnings. -/
def Level.ofName? (name : Text) : Option Level :=
  let word := Text.lower (Text.trim name)
  if word == ascii "trace" then some .trace
  else if word == ascii "debug" then some .debug
  else if word == ascii "info" then some .info
  else if word.isEmpty || word == ascii "warn" || word == ascii "warning" then some .warn
  else if word == ascii "error" then some .error
  else none

/-- The settings. Numbers are as given, so that a bad one can be reported. -/
structure Settings where
  annotate : Bool := false
  staticSymbols : Bool := false
  logLevel : Text := ascii "warn"
  stackBase : Int := 256
  maxSteps : Int := 100000
  ramSize : Int := 32768
  frequency : Float := 1000.0

namespace Settings

/-- Frequencies are written positionally from 0.0001 up to, but not including, a million. -/
def frequencyLayout : Decimal.Layout := ⟨-4, 6⟩

def frequencyText (s : Settings) : Text := Decimal.doubleText frequencyLayout s.frequency

def level (s : Settings) : Level := (Level.ofName? s.logLevel).getD .warn

def shows (s : Settings) (r : LogRecord) : Bool := s.level.rank ≤ r.level.rank

def invalid (what : String) (value : Text) : Error :=
  { context := [.task (ascii what ++ ascii " " ++ value)], cause := .invalidSetting }

def levelOf (name : Text) : Except Error Level :=
  match Level.ofName? name with
  | some level => .ok level
  | none => .error (invalid "log_level" (Text.quote name))

/-- Checks that the computer can be built and the level is known. The first bad setting is reported. -/
def validate (s : Settings) : Except Error Unit :=
  if s.ramSize ≤ 4 then .error (invalid "ram_size" (Text.signed s.ramSize))
  else if s.stackBase < 5 ∨ s.ramSize ≤ s.stackBase then .error (invalid "stack_base" (Text.signed s.stackBase))
  else if s.maxSteps < 0 then .error (invalid "max_steps" (Text.signed s.maxSteps))
  else if s.frequency ≤ 0.0 then .error (invalid "freq_mhz" s.frequencyText)
  else (levelOf s.logLevel).map fun _ => ()

/-! ## Documents -/

def computerRules : Yaml.FieldRules Settings := .ofList
  [("stack_base", fun s n => (Yaml.intField s.stackBase n).map fun v => { s with stackBase := v }),
    ("max_steps", fun s n => (Yaml.intField s.maxSteps n).map fun v => { s with maxSteps := v }),
    ("ram_size", fun s n => (Yaml.intField s.ramSize n).map fun v => { s with ramSize := v }),
    ("freq_mhz", fun s n => (Yaml.floatField s.frequency n).map fun v => { s with frequency := v })]

def rules : Yaml.FieldRules Settings := .ofList
  [("annotate", fun s n => (Yaml.boolField s.annotate n).map fun v => { s with annotate := v }),
    ("static_symbols", fun s n => (Yaml.boolField s.staticSymbols n).map fun v => { s with staticSymbols := v }),
    ("log_level", fun s n => (Yaml.textField s.logLevel n).map fun v => { s with logLevel := v }),
    ("simulator", Yaml.recordField computerRules)]

def ofDocument? (content : Text) : Option Settings := (Yaml.parse? content).bind (Yaml.recordField rules {})

def load (tree : FileTree) (path : Text) : Except Error Settings :=
  match tree.readFile path with
  | .error e => .error (e.toError.during "read config")
  | .ok content =>
    match ofDocument? content with
    | none => .error { context := [.task (ascii "parse config " ++ path)], cause := .badDocument }
    | some s =>
      match s.validate with
      | .error e => .error (e.within (.file path))
      | .ok () => .ok s

end Settings

end HackStack
