import HackStack.Generator
import HackStack.Sink
import HackStack.Sources

/-!
# Translating source files

A translator lowers the commands of one source file after the other into one sink. It stops at the first
command that is no command, cannot be lowered or cannot be written. Flow and function commands are reported
and passed over.
-/

namespace HackStack

/-- The state of a translation: the generator, the sink, the numbers of commands written and passed over, and
the records so far. -/
structure Translator (σ : Type) where
  generator : Generator
  sink : σ
  commands : Nat := 0
  skipped : Nat := 0
  log : Array LogRecord := #[]

namespace Translator

variable {σ : Type} [Sink σ]

def new (annotate staticSymbols : Bool) (sink : σ) : Translator σ :=
  { generator := { annotate := annotate, staticSymbols := staticSymbols }, sink := sink }

def report (t : Translator σ) (r : LogRecord) : Translator σ := { t with log := t.log.push r }

def emitted (g : Generator) (r : Request) : LogRecord :=
  .of .trace "Emit" [("Command", .text r.toText), ("File", .text g.fileName), ("JumpFlag", .int g.comparisons)]

/-- Lowers a request and writes its code. Slots are claimed before the write and stay claimed if it fails; the
label pair of a comparison is used up only if it succeeds. -/
def request (t : Translator σ) (r : Request) : Translator σ × Option Error :=
  match t.generator.lower r with
  | .error rejection => (t, some { cause := .rejected rejection })
  | .ok (plan, g) =>
    match Sink.write t.sink (Asm.render (g.emission r plan)) with
    | (sink, some e) => ({ t with generator := g, sink := sink }, some (e.within (.writing r.toText)))
    | (sink, none) => ({ t with generator := g.written plan, sink := sink }.report (emitted g r), none)

def requestFor? : Command → Option Request
  | .arithmetic word => some (.operator word)
  | .push segment index => some (.access .push segment index)
  | .pop segment index => some (.access .pop segment index)
  | _ => none

def command (t : Translator σ) (c : Command) : Translator σ × Option Error :=
  match requestFor? c with
  | none =>
    ({ t with skipped := t.skipped + 1 }.report
      (.of .warn "command not translated" [("Command", .text c.toText)]), none)
  | some r =>
    match t.request r with
    | (t, some e) => (t, some e)
    | (t, none) => ({ t with commands := t.commands + 1 }, none)

/-- Translates the entries of a listing up to the first error, which gets the line it happened at. -/
def entries (t : Translator σ) : List Entry → Translator σ × Option Error
  | [] => (t, none)
  | entry :: rest =>
    match Command.decode entry.text with
    | .error e => (t, some { context := [.line entry.line], cause := .undecodable e })
    | .ok c =>
      match t.command c with
      | (t, some e) => (t, some (e.within (.line entry.line)))
      | (t, none) => entries t rest

def listing (t : Translator σ) (name : Text) (list : List Entry) : Translator σ × Option Error :=
  let t := { t with generator := t.generator.setFile name }.report
    (.of .trace "Driver" [("Behavior", .text (ascii "TranslateFile")), ("File", .text name),
      ("Commands", .int list.length)])
  match t.entries list with
  | (t, some e) => (t, some (e.within (.file name)))
  | (t, none) =>
    (t.report (.of .debug "translated"
      [("File", .text name), ("Commands", .int t.commands), ("Skipped", .int t.skipped)]), none)

def file (t : Translator σ) (name : Text) (source : Except FileError Text) : Translator σ × Option Error :=
  let failed (e : Error) : Translator σ × Option Error :=
    (t, some ((e.during "read vm source").within (.file name)))
  match source with
  | .error e => failed e.toError
  | .ok source =>
    match Listing.read? source with
    | none => failed { cause := .lineTooLong }
    | some list => t.listing name list

def files (treeOf : σ → FileTree) (t : Translator σ) : List Text → Translator σ × Option Error
  | [] => (t, none)
  | path :: rest =>
    match (treeOf t.sink).openAt path with
    | .error e => (t, some (e.toError.during "open vm source"))
    | .ok entry =>
      match t.file path (FileTree.contentOf path entry) with
      | (t, some e) => (t, some e)
      | (t, none) => files treeOf t rest

def path (treeOf : σ → FileTree) (t : Translator σ) (input : Text) : Translator σ × Option Error :=
  match (treeOf t.sink).sourceFiles input with
  | .error e => (t, some e)
  | .ok paths => files treeOf t paths

end Translator

end HackStack
