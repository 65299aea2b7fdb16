import EsoHost.CommandLine.Path
import EsoHost.Session

/-!
# `EsoHost.CommandLine.Arguments`: reading the command line

There are two commands, `run` and `check`. Each takes one file and
options, which may stand before or after the file. An option has one
value, given as the next word or after `=`; the word `--` ends the
options.

Words are read from left to right. A value that is a word of its own
is looked at only when the next argument begins, so an argument that
does not exist is reported before a bad value right in front of it
(`Scan.settle`).
-/

set_option autoImplicit false

namespace EsoHost.CommandLine

/-! ### Requests -/

/-- What to run, and how. -/
structure RunOptions where
  file : String
  /-- The language, if it was named. -/
  named : Option Language
  mode : InputMode
  pace : Pace
  unknown : Piet.UnknownColors
  exhausted : Piet.ExhaustedInput
  deriving DecidableEq, Repr

/-- The language to run: the one that was named or else the one that
the file's name suggests. -/
def RunOptions.language (o : RunOptions) : Language := o.named.getD (guessLanguage o.file)

/-- What to check, and how. -/
structure CheckOptions where
  file : String
  unknown : Piet.UnknownColors
  deriving DecidableEq, Repr

/-- A command line that is understood. -/
inductive Request where
  | run (options : RunOptions)
  | check (options : CheckOptions)
  deriving DecidableEq, Repr

/-- Why there is nothing to do, or nothing that can be done. -/
inductive Fault where
  /-- Help was asked for. -/
  | help
  /-- The version was asked for. -/
  | version
  /-- There is no command. -/
  | noCommand
  | unknownCommand
  | noFile
  | unknownArgument
  /-- A value is missing or is none of those that are allowed. -/
  | badValue
  /-- A value is not a number, or the number is too large. -/
  | badNumber
  /-- An option is given twice. -/
  | repeated
  /-- A flag is given a value. -/
  | unwantedValue
  deriving DecidableEq, Repr

/-! ### Values -/

/-- What a value is given for. -/
inductive Key where
  | file | lang | mode | opsPerMs | maxBurst | unknownColors | exhaustedInput
  deriving DecidableEq, Repr

/-- The values given so far. -/
structure Given where
  file : Option String := none
  lang : Option Language := none
  mode : Option InputMode := none
  opsPerMs : Option UInt32 := none
  maxBurst : Option UInt32 := none
  unknownColors : Option Piet.UnknownColors := none
  exhaustedInput : Option Piet.ExhaustedInput := none
  deriving DecidableEq, Repr

/-- A value out of a list of names. -/
def oneOf {α : Type} (choices : List (String × α)) (value : String) : Except Fault α :=
  match choices.lookup value with
  | some a => .ok a
  | none => .error .badValue

/-- A number that fits 32 bits. -/
def number (value : String) : Except Fault UInt32 :=
  match Text.readInteger? value.toList with
  | some n => if 0 ≤ n ∧ n ≤ 0xFFFFFFFF then .ok (UInt32.ofNat n.toNat) else .error .badNumber
  | none => .error .badNumber

/-- The name of a file, which is not empty. -/
def fileName (value : String) : Except Fault String :=
  if value = "" then .error .badValue else .ok value

/-- A value read for a place that has to be empty still. -/
def fill {α : Type} (place : Option α) (read : String → Except Fault α) (value : String) :
    Except Fault (Option α) :=
  match place with
  | some _ => .error .repeated
  | none => (read value).map some

/-- Takes a value. An option that was given before is reported before
its value is read. -/
def Given.take (g : Given) (key : Key) (value : String) : Except Fault Given :=
  match key with
  | .file => return { g with file := ← fill g.file fileName value }
  | .lang =>
    let languages := [("piet", .piet), ("brainfuck", .brainfuck)]
    return { g with lang := ← fill g.lang (oneOf languages) value }
  | .mode =>
    let modes := [("interactive", .interactive), ("staged", .staged)]
    return { g with mode := ← fill g.mode (oneOf modes) value }
  | .opsPerMs => return { g with opsPerMs := ← fill g.opsPerMs number value }
  | .maxBurst => return { g with maxBurst := ← fill g.maxBurst number value }
  | .unknownColors =>
    let policies := [("reject", .reject), ("white", .asWhite), ("black", .asBlack)]
    return { g with unknownColors := ← fill g.unknownColors (oneOf policies) value }
  | .exhaustedInput =>
    let policies := [("skip", .skip), ("zero", .pushZero), ("halt", .halt)]
    return { g with exhaustedInput := ← fill g.exhaustedInput (oneOf policies) value }

/-! ### Words -/

/-- The shape of a word. -/
inductive Word where
  /-- `--`, which ends the options. -/
  | escape
  /-- `--name` or `--name=value`. -/
  | long (name : String) (value : Option String)
  /-- `-f`, with the first letter; the others do not matter. -/
  | short (flag : Char)
  /-- Anything else. -/
  | plain
  deriving DecidableEq, Repr

/-- The shape of a word. A single `-` is plain. -/
def Word.shape (word : String) : Word :=
  match word.toList with
  | ['-', '-'] => .escape
  | '-' :: '-' :: rest =>
    let name := String.ofList (rest.takeWhile (· ≠ '='))
    match rest.dropWhile (· ≠ '=') with
    | [] => .long name none
    | _ :: value => .long name (some (String.ofList value))
  | '-' :: flag :: _ => .short flag
  | _ => .plain

/-- The words after a command, read in part. -/
structure Scan where
  given : Given := {}
  /-- The last key, with its value if there was one yet. It was not
  looked at. -/
  pending : Option (Key × Option String) := none
  /-- A file was named. -/
  filed : Bool := false
  /-- The options have ended. -/
  escaped : Bool := false
  deriving DecidableEq, Repr

namespace Scan

/-- Looks at the pending value. -/
def settle (s : Scan) : Except Fault Scan :=
  match s.pending with
  | none => .ok s
  | some (_, none) => .error .badValue
  | some (key, some value) => return { s with given := ← s.given.take key value, pending := none }

/-- A word that belongs to no option names the file. -/
def place (s : Scan) (word : String) : Except Fault Scan :=
  if s.filed then .error .unknownArgument
  else return { ← s.settle with pending := some (.file, some word), filed := true }

/-- Reads one word; `options` are the names of the options. -/
def read (options : List (String × Key)) (s : Scan) (word : String) : Except Fault Scan :=
  if s.escaped then s.place word
  else
    match Word.shape word with
    | .escape => .ok { s with escaped := true }
    | .long "help" none => do
      let _ ← s.settle
      .error .help
    | .long "help" (some _) => .error .unwantedValue
    | .long name value =>
      match options.lookup name with
      | none => .error .unknownArgument
      | some key => do
        let s ← s.settle
        match value with
        | none => return { s with pending := some (key, none) }
        | some value => return { s with given := ← s.given.take key value }
    | .short 'h' => do
      let _ ← s.settle
      .error .help
    | .short _ => .error .unknownArgument
    | .plain =>
      match s.pending with
      | some (key, none) => .ok { s with pending := some (key, some word) }
      | _ => s.place word

end Scan

/-- All values given by the words after a command. -/
def scan (options : List (String × Key)) (words : List String) : Except Fault Given := do
  let s ← words.foldlM (Scan.read options) {}
  let s ← s.settle
  return s.given

/-! ### Commands -/

/-- The options of `run`. -/
def runKeys : List (String × Key) :=
  [("lang", .lang), ("mode", .mode), ("ops-per-ms", .opsPerMs), ("max-burst", .maxBurst),
    ("unknown-colors", .unknownColors), ("exhausted-input", .exhaustedInput)]

/-- The options of `check`. -/
def checkKeys : List (String × Key) := [("unknown-colors", .unknownColors)]

/-- The file, without which no command works. -/
def Given.requireFile (g : Given) : Except Fault String :=
  match g.file with
  | some file => .ok file
  | none => .error .noFile

/-- Reads the words after `run`. If the words do not say how many steps
to make in a millisecond, the environment does. -/
def readRun (env : Option String) (words : List String) : Except Fault Request := do
  let g ← scan runKeys words
  let g ←
    match g.opsPerMs, env with
    | none, some value => g.take .opsPerMs value
    | _, _ => pure g
  let file ← g.requireFile
  let pace : Pace := {}
  return .run
    { file
      named := g.lang
      mode := g.mode.getD .interactive
      pace :=
        { opsPerMs := g.opsPerMs.getD pace.opsPerMs
          burstMultiplier := g.maxBurst.getD pace.burstMultiplier }
      unknown := g.unknownColors.getD .reject
      exhausted := g.exhaustedInput.getD .skip }

/-- Reads the words after `check`. -/
def readCheck (words : List String) : Except Fault Request := do
  let g ← scan checkKeys words
  return .check { file := ← g.requireFile, unknown := g.unknownColors.getD .reject }

/-- The names of the commands. -/
def commandNames : List String := ["run", "check", "help"]

/-- Reads the words after `help`: at most the name of one command. -/
def readHelp : List String → Fault
  | [] => .help
  | [name] => if name ∈ commandNames then .help else .unknownCommand
  | _ => .unknownCommand

/-- Reads the words of a command line. `env` is the value of the
environment variable for the steps in a millisecond, if it is set. -/
def readRequest (env : Option String) : List String → Except Fault Request
  | [] => .error .noCommand
  | "run" :: words => readRun env words
  | "check" :: words => readCheck words
  | "help" :: words => .error (readHelp words)
  | word :: words =>
    match Word.shape word with
    | .escape =>
      match words with
      | [] => .error .noCommand
      | next :: _ => .error (if next ∈ commandNames then .unknownArgument else .unknownCommand)
    | .long "help" none | .short 'h' => .error .help
    | .long "version" none | .short 'V' => .error .version
    | .long "help" (some _) | .long "version" (some _) => .error .unwantedValue
    | .long _ _ | .short _ => .error .unknownArgument
    | .plain => .error .unknownCommand

end EsoHost.CommandLine
