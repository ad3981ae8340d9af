import HackStack.CommandLine.Invocation
import HackStack.Machine.State
import HackStack.Settings
import HackStack.Suite.Load
import HackStack.Suite.Report

/-!
# The command line

An invocation is carried out on a file tree. What comes out is the tree afterwards, the text printed, the
records reported and how it ended.
-/

namespace HackStack.CommandLine

/-- How a command ended. A crash is a look-up outside the memory of the computer. -/
inductive Ending where
  | done
  | misused (e : UsageError)
  | failed (e : Error)
  | crashed
  deriving DecidableEq, Repr

/-- What a command did. One that goes on for ever has no ending, and `ends` is false. -/
structure Outcome where
  tree : FileTree
  output : Text := []
  log : List LogRecord := []
  ends : Bool := true
  ending : Ending := .done

namespace Outcome

def exitCode (o : Outcome) : UInt32 :=
  match o.ending with
  | .done => 0
  | .misused _ | .failed _ => 1
  | .crashed => 2

def complaint (o : Outcome) : Text :=
  match o.ending with
  | .done => []
  | .misused e =>
    ascii "Error: " ++ e.message ++ ascii "\n" ++ match e with
      | .unknownCommand _ _ => ascii "Run '" ++ programName ++ ascii " --help' for usage.\n"
      | _ => []
  | .failed e => ascii "Error: " ++ e.message ++ ascii "\n"
  | .crashed => ascii "memory access outside the computer\n"

def logLines (o : Outcome) : Text := o.log.flatMap fun r => r.toLine ++ ascii "\n"

end Outcome

/-! ## Commands -/

/-- What comes of a core that has run: its state is shown and its fault reported, unless it runs for ever. -/
def endOfRun (base : Int) (tree : FileTree) (log : Array LogRecord) (core : Core) : Outcome :=
  let log := (log ++ core.log).toList
  if core.pending then { tree := tree, log := log, ends := false }
  else
    let (text, complete) := core.machine.stateText base
    { tree := tree
      output := text
      log := log
      ending :=
        if !complete then .crashed
        else match core.fault with
          | some fault => .failed fault.toError
          | none => .done }

def runAssembly (s : Settings) (tree : FileTree) (t : Translator MemorySink) : Outcome :=
  let failed (e : Error) : Outcome := { tree := tree, log := t.log.toList, ending := .failed e }
  match Asm.assemble t.sink.text with
  | .error e => failed { context := [.task (ascii "assemble translated program")], cause := .unassemblable e }
  | .ok program =>
    match Core.new? s.ramSize (Machine.limitOf s.maxSteps) with
    | none => { tree := tree, log := t.log.toList, ending := .crashed }
    | some core =>
      let core := { core with machine := (core.machine.poke? 0 s.stackBase).getD core.machine }
      endOfRun s.stackBase tree t.log (core.map program).run

def run (s : Settings) (tree : FileTree) (input : Text) : Outcome :=
  match (Translator.new false s.staticSymbols ({} : MemorySink)).path (fun _ => tree) input with
  | (t, some e) => { tree := tree, log := t.log.toList, ending := .failed e }
  | (t, none) => runAssembly s tree t

/-- Translates an input into a sink. What was written before an error stays. -/
def translateInto (s : Settings) (input output : Text) (sink : FileSink) : Outcome :=
  match (Translator.new s.annotate s.staticSymbols sink).path FileSink.tree input with
  | (t, some e) =>
    let sink := t.sink.close.1
    { tree := sink.tree, output := sink.printed, log := t.log.toList, ending := .failed e }
  | (t, none) =>
    match t.sink.close with
    | (sink, some e) =>
      { tree := sink.tree, output := sink.printed, log := t.log.toList,
        ending := .failed (e.during "close output") }
    | (sink, none) =>
      let written := LogRecord.of .info "translation written"
        [("Input", .text input), ("Output", .text output), ("Commands", .int t.commands)]
      { tree := sink.tree, output := sink.printed, log := (t.log.push written).toList }

/-- Translates an input into an output, which is the usual one for the input if none is given. -/
def translate (s : Settings) (tree : FileTree) (input output : Text) : Outcome :=
  match if output.isEmpty then tree.outputPath input else .ok output with
  | .error e => { tree := tree, ending := .failed e }
  | .ok output =>
    match FileSink.openAt tree output with
    | .error e => { tree := tree, ending := .failed (e.toError.during "create output") }
    | .ok sink => translateInto s input output sink

def suitesAt (tree : FileTree) (path : Text) : Except Error (List Suite) :=
  match tree.isDirectory path with
  | .error e => .error (e.toError.during "stat suite")
  | .ok true => Suite.loadDirectory tree path
  | .ok false => (Suite.load tree path).map fun s => [s]

def Ending.ofReport (r : Report) : Ending :=
  if r.ok then .done else .failed { cause := .failedCases (r.count .failed) r.results.length }

def verify (tree : FileTree) (paths : List Text) (reportPath : Text) : Outcome :=
  match paths.mapM (suitesAt tree) with
  | .error e => { tree := tree, ending := .failed e }
  | .ok suites =>
    match Report.generate suites.flatten with
    | (log, none) => { tree := tree, log := log.toList, ends := Report.ends suites.flatten, ending := .crashed }
    | (log, some report) =>
      let shown : Outcome :=
        { tree := tree, output := report.toText, log := log.toList, ending := .ofReport report }
      if reportPath.isEmpty then shown
      else match report.save tree reportPath with
        | (tree, none) => { shown with tree := tree }
        | (tree, some e) => { shown with tree := tree, ending := .failed e }

/-! ## Invocations -/

/-- The settings for a command: those of the settings file, if one is given, with the level of the option. -/
def settingsFor (tree : FileTree) (o : Options) : Except Error Settings := do
  let s ← if o.config.isEmpty then .ok {} else Settings.load tree o.config
  let s := match o.logLevel with
    | some level => { s with logLevel := level }
    | none => s
  s.validate
  return s

/-- Carries out a command under its settings. Only records of the level of the settings are kept. -/
def withSettings (tree : FileTree) (o : Options) (command : Settings → Outcome) : Outcome :=
  match settingsFor tree o with
  | .error e => { tree := tree, ending := .failed e }
  | .ok s =>
    let outcome := command s
    { outcome with log := outcome.log.filter s.shows }

/-- Runs a program, with the settings that the options replace. -/
def runWith (tree : FileTree) (o : Options) (input : Text) (s : Settings) : Outcome :=
  let s := { s with maxSteps := o.steps.getD s.maxSteps, stackBase := o.stackBase.getD s.stackBase }
  match s.validate with
  | .error e => { tree := tree, ending := .failed e }
  | .ok () => run s tree input

def translateWith (tree : FileTree) (o : Options) (input : Text) (s : Settings) : Outcome :=
  translate
    { s with annotate := o.annotate.getD s.annotate, staticSymbols := o.staticSymbols.getD s.staticSymbols }
    tree input o.output

def helpText : Text :=
  ascii ("Translates programs of the stack machine into assembly.\n\n" ++
    "Usage:\n" ++
    "  vmtranslate translate file.vm|dir [-o file] [--annotate] [--static-symbols]\n" ++
    "  vmtranslate run file.vm|dir [--steps n] [--stack-base n]\n" ++
    "  vmtranslate verify suite.yaml|dir... [--report file]\n\n" ++
    "Every command takes --config file and --log-level level.\n")

def perform (tree : FileTree) : Invocation → Outcome
  | .help => { tree := tree, output := helpText }
  | .run o input => withSettings tree o (runWith tree o input)
  | .translate o input => withSettings tree o (translateWith tree o input)
  | .verify o paths => withSettings tree o fun _ => verify tree paths o.report

def execute (tree : FileTree) (args : List Text) : Outcome :=
  match Invocation.read args with
  | .error e => { tree := tree, ending := .misused e }
  | .ok invocation => perform tree invocation

end HackStack.CommandLine
