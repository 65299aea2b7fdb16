import EsoHost.CommandLine.Arguments
import EsoHost.Terminal

/-!
# `EsoHost.CommandLine.App`: what the program does

Everything that the program does to its surroundings is an `Outcome`:
an exit code and the text on both output streams. It depends on the
command line, one environment variable, the contents of one file, the
lines of input and whether these are echoed, and on nothing else:
`execute` gets the clock as well, but only to pace the run.
-/

set_option autoImplicit false

namespace EsoHost.CommandLine

/-! ### Outcomes -/

/-- What is left behind when the program ends. -/
structure Outcome where
  code : UInt32
  stdout : String
  stderr : String
  deriving DecidableEq, Repr

/-- What went wrong and, where the message alone does not say it, in
which attempt. -/
structure Failure where
  context : Option String
  message : String
  deriving DecidableEq, Repr

/-- The report of a failure. -/
def Failure.report (f : Failure) : String :=
  match f.context with
  | none => s!"Error: {f.message}\n"
  | some context => s!"Error: {context}\n\nCaused by:\n    {f.message}\n"

/-- The outcome of a failure after `stdout` was written. -/
def Failure.outcome (f : Failure) (stdout : String) : Outcome := ⟨1, stdout, f.report⟩

/-- The name and the version of the program. -/
def versionText : String := "esolangs 0.1.0\n"

/-- What the commands are. -/
def helpText : String :=
  String.intercalate "\n"
    [ "Run codel-grid programs and their line-oriented cousins",
      "",
      "Usage: esolangs <COMMAND>",
      "",
      "Commands:",
      "  run    Run a program",
      "  check  Compile a codel grid and report its block graph",
      "  help   Print this message or the help of the given subcommand(s)",
      "",
      "Options:",
      "  -h, --help     Print help",
      "  -V, --version  Print version",
      "" ]

/-- The wording of a usage error. -/
def Fault.message : Fault → String
  | .help => "help requested"
  | .version => "version requested"
  | .noCommand => "a subcommand is required"
  | .unknownCommand => "unrecognized subcommand"
  | .noFile => "the file is missing"
  | .unknownArgument => "unexpected argument"
  | .badValue => "invalid value"
  | .badNumber => "invalid number"
  | .repeated => "an option is given twice"
  | .unwantedValue => "unexpected value"

/-- The outcome of a command line that names nothing to do. Help and
version are answers; all else is misuse. -/
def Fault.outcome : Fault → Outcome
  | .help => ⟨0, helpText, ""⟩
  | .version => ⟨0, versionText, ""⟩
  | .noCommand => ⟨2, "", helpText⟩
  | fault => ⟨2, "", s!"error: {fault.message}\n\nFor more information, try '--help'.\n"⟩

/-! ### Files -/

/-- Why a file cannot be read. -/
inductive FileError where
  | notFound
  | notDirectory
  | isDirectory
  | permissionDenied
  /-- Its bytes, or those on the input stream, are no UTF-8. -/
  | notText
  | other (message : String)
  deriving DecidableEq, Repr

/-- The wording of a file error. -/
def FileError.message : FileError → String
  | .notFound => "No such file or directory (os error 2)"
  | .notDirectory => "Not a directory (os error 20)"
  | .isDirectory => "Is a directory (os error 21)"
  | .permissionDenied => "Permission denied (os error 13)"
  | .notText => "stream did not contain valid UTF-8"
  | .other message => message

/-- The text of a file, given its bytes. -/
def readText (file : String) (bytes : Except FileError ByteArray) : Except Failure String :=
  let failure (e : FileError) : Failure := ⟨some s!"cannot read {file}", e.message⟩
  match bytes with
  | .error e => .error (failure e)
  | .ok bytes =>
    match String.fromUTF8? bytes with
    | some text => .ok text
    | none => .error (failure .notText)

/-! ### Checking -/

/-- The report on a program. -/
def summary (file : String) (p : Piet.Program) : String :=
  s!"{file}: {p.grid.width}x{p.grid.height} codels, " ++
    s!"{p.blocks.size} blocks, {p.liveTransitions} live transitions\n"

/-- Compiles a grid and reports on it. -/
def check (o : CheckOptions) (bytes : Except FileError ByteArray) : Outcome :=
  match readText o.file bytes with
  | .error failure => failure.outcome ""
  | .ok text =>
    match Piet.Program.ofSource o.unknown text with
    | .error e => (⟨none, e.message⟩ : Failure).outcome ""
    | .ok program => ⟨0, summary o.file program, ""⟩

/-! ### Running -/

/-- The engine for a text. A grid that does not compile is reported
together with its file; a Brainfuck source is read only when the run
starts, and its error stands for itself. -/
def loadEngine (o : RunOptions) (text : String) : Except Failure Engine :=
  match o.language with
  | .piet =>
    match Piet.Program.ofSource o.unknown text with
    | .ok program => .ok (.ofPiet program o.exhausted)
    | .error e => .error ⟨some s!"cannot compile {o.file}", e.message⟩
  | .brainfuck =>
    match Engine.ofBrainfuck text with
    | .ok engine => .ok engine
    | .error e => .error ⟨none, e.message⟩

/-- A terminal on which the program has been started. -/
def start (o : RunOptions) (bytes : Except FileError ByteArray) (echoed : Bool) (now : Nat) :
    Except Failure Terminal := do
  let text ← readText o.file bytes
  let engine ← loadEngine o text
  return .new echoed ((Session.new o.pace).run o.mode now (.ok engine)).2

/-- The outcome of a run that has ended. -/
def endOutcome (ending : Ending) (stdout : String) : Outcome :=
  match ending with
  | .finished _ => ⟨0, stdout, ""⟩
  | .undecodable => (⟨none, FileError.notText.message⟩ : Failure).outcome stdout

/-- The file that a request names. -/
def Request.file : Request → String
  | .run o => o.file
  | .check o => o.file

/-- Takes a request, with the bytes of its file, up to the first turn of
a terminal. A check and a run that cannot be started have an outcome
without any. -/
def prepare (request : Request) (bytes : Except FileError ByteArray) (echoed : Bool) (now : Nat) :
    Except Outcome Terminal :=
  match request with
  | .check o => .error (check o bytes)
  | .run o => (start o bytes echoed now).mapError fun failure => failure.outcome ""

/-- Does what the command line asks for. `readFile` gives the bytes of
the file that is named. There is no outcome if a run takes more than
`turns` turns. -/
def execute (argv : List String) (env : Option String)
    (readFile : String → Except FileError ByteArray) (lines : List (Option String))
    (clock : Nat → Nat) (turns : Nat) (echoed : Bool := false) : Option Outcome :=
  match readRequest env argv with
  | .error fault => some fault.outcome
  | .ok request =>
    match prepare request (readFile request.file) echoed (clock 0) with
    | .error outcome => some outcome
    | .ok terminal => do
      let (ending, terminal, _) ← terminal.run clock turns 1 lines
      return endOutcome ending terminal.output

end EsoHost.CommandLine
