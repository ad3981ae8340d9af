import HackStack.FileTree.Glob
import HackStack.Suite
import HackStack.Yaml.Decode

/-!
# Loading suites

A suite is a YAML document. Every case needs a name, and the error it expects must be one of the known kinds.
-/

namespace HackStack

def Expectation.rules : Yaml.FieldRules Expectation := .ofList
  [("stack", fun e n =>
      (Yaml.listValue (Yaml.intValue 16) n).map fun values => { e with stack := values.map List.reduceOption }),
    ("ram", fun e n => (Yaml.imageField n).map fun v => { e with ram := v }),
    ("jump_count", fun e n => (Yaml.intValue 64 n).map fun v => { e with comparisons := v }),
    ("error", fun e n => (Yaml.textField e.error n).map fun v => { e with error := v })]

def Case.rules : Yaml.FieldRules Case := .ofList
  [("name", fun c n => (Yaml.textField c.name n).map fun v => { c with name := v }),
    ("description", fun c n => (Yaml.textField c.description n).map fun v => { c with description := v }),
    ("skip", fun c n => (Yaml.textField c.skip n).map fun v => { c with skip := v }),
    ("file", fun c n => (Yaml.textField c.file n).map fun v => { c with file := v }),
    ("source", fun c n => (Yaml.textField c.source n).map fun v => { c with source := v }),
    ("stack_base", fun c n => (Yaml.intField c.stackBase n).map fun v => { c with stackBase := v }),
    ("ram", fun c n => (Yaml.imageField n).map fun v => { c with ram := v }),
    ("max_steps", fun c n => (Yaml.intField c.maxSteps n).map fun v => { c with maxSteps := v }),
    ("static_symbols", fun c n => (Yaml.boolField c.staticSymbols n).map fun v => { c with staticSymbols := v }),
    ("expect", fun c n => (Yaml.recordField Expectation.rules c.expect n).map fun v => { c with expect := v })]

namespace Suite

def rules : Yaml.FieldRules Suite := .ofList
  [("name", fun s n => (Yaml.textField s.name n).map fun v => { s with name := v }),
    ("description", fun s n => (Yaml.textField s.description n).map fun v => { s with description := v }),
    ("cases", fun s n =>
      (Yaml.listValue (Yaml.recordField Case.rules {}) n).map fun v => { s with cases := v.getD [] })]

def problem? (index : Nat) : List Case → Option Cause
  | [] => none
  | c :: rest =>
    if c.name.isEmpty then some (.namelessCase index)
    else if !c.expect.error.isEmpty && (ErrorKind.ofName? c.expect.error).isNone then
      some (.unknownExpectation c.name c.expect.error)
    else problem? (index + 1) rest

/-- Loads a suite from a file. A suite without a name is named after the file. -/
def load (tree : FileTree) (path : Text) : Except Error Suite :=
  match tree.readFile path with
  | .error e => .error (e.toError.during "read suite")
  | .ok content =>
    match (Yaml.parse? content).bind (Yaml.recordField rules {}) with
    | none => .error { context := [.task (ascii "parse suite " ++ path)], cause := .badDocument }
    | some s =>
      match problem? 0 s.cases with
      | some cause => .error { context := [.file path], cause := cause }
      | none => .ok { s with name := if s.name.isEmpty then Path.base path else s.name, file := path }

def loadDirectory (tree : FileTree) (dir : Text) : Except Error (List Suite) :=
  match tree.glob? (Path.join dir (ascii "*.yaml")) with
  | none => .error { context := [.task (ascii "list suites")], cause := .badPattern }
  | some paths => (paths.mergeSort FileTree.textLE).mapM (load tree)

end Suite

end HackStack
