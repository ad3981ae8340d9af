import HackStack.Text.Blank
import HackStack.Text.Quoted

/-!
# Log records

What happens on the way is reported as a list of records. A record has a level, a message and named values,
and is written on one line.
-/

namespace HackStack

inductive Level where
  | trace
  | debug
  | info
  | warn
  | error
  deriving DecidableEq, Repr

namespace Level

def rank : Level → Int
  | trace => -8
  | debug => -4
  | info => 0
  | warn => 4
  | error => 8

def label : Level → Text
  | trace => ascii "DEBUG-4"
  | debug => ascii "DEBUG"
  | info => ascii "INFO"
  | warn => ascii "WARN"
  | error => ascii "ERROR"

end Level

inductive LogValue where
  | text (t : Text)
  | int (i : Int)
  | bool (b : Bool)
  deriving DecidableEq, Repr

def LogValue.toText : LogValue → Text
  | text t => t
  | int i => Text.signed i
  | bool true => ascii "true"
  | bool false => ascii "false"

structure LogRecord where
  level : Level
  message : Text
  attributes : List (Text × LogValue)
  deriving DecidableEq, Repr

/-- Whether a piece of a text forces quotes on a log line: white space, the equals sign, a quote, control
characters, unprintable characters, the replacement character and stray bytes. -/
def forcesQuotes : Glyph → Bool
  | .stray _ => true
  | .char code =>
    if code < 0x80 then code ≤ 32 || code == 34 || code == 61
    else code == 0xFFFD || !Text.isPrintable code

def logField (t : Text) : Text :=
  if t.isEmpty || (Text.glyphs t).any forcesQuotes then Text.quote t else t

namespace LogRecord

def of (level : Level) (message : String) (attributes : List (String × LogValue)) : LogRecord :=
  ⟨level, ascii message, attributes.map fun (key, value) => (ascii key, value)⟩

def field (key : Text) : LogValue → Text
  | .text t => logField key ++ ascii "=" ++ logField t
  | value => logField key ++ ascii "=" ++ value.toText

def toLine (r : LogRecord) : Text :=
  ascii "level=" ++ r.level.label ++ ascii " msg=" ++ logField r.message ++
    r.attributes.flatMap fun (key, value) => ascii " " ++ field key value

end LogRecord

end HackStack
