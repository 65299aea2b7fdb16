import EsoHost.CommandLine.App

/-!
# `EsoHost.Main`: the program

Reads the command line, the environment, the file and the input lines,
and keeps the clock. What it does with them is said in
`EsoHost.CommandLine.App` and `EsoHost.Terminal`; `loop` asks
`Terminal.turn` and `Terminal.answer`, as `Terminal.run` does.
-/

set_option autoImplicit false

namespace EsoHost.Main

open EsoHost.CommandLine

/-- The time between two bursts of a running program, in
milliseconds. -/
def frame : UInt32 := 16

/-- The bytes of a file. -/
def readFile (file : String) : IO (Except FileError ByteArray) := do
  try
    return .ok (← IO.FS.readBinFile file)
  catch e =>
    match e with
    | .noFileOrDirectory .. => return .error .notFound
    | .permissionDenied .. => return .error .permissionDenied
    | .inappropriateType _ 21 _ => return .error .isDirectory
    | .inappropriateType .. => return .error .notDirectory
    | e => return .error (.other (toString e))

/-- The bytes of the next line of input, with the line feed that ends
it; `line` was read already. -/
partial def nextBytes (input : IO.FS.Stream) (line : ByteArray) : IO ByteArray := do
  let byte ← input.read 1
  if byte.isEmpty then return line
  let line := line ++ byte
  if byte.toList = [10] then return line
  nextBytes input line

/-- The next line of input, `some none` if it cannot be decoded, or
nothing at the end of input. -/
def nextLine : IO (Option (Option String)) := do
  let bytes ← nextBytes (← IO.getStdin) ByteArray.empty
  return if bytes.isEmpty then none else some (String.fromUTF8? bytes)

/-- Writes out what an outcome says and returns its exit code. -/
def report (o : Outcome) : IO UInt32 := do
  IO.print o.stdout
  IO.eprint o.stderr
  return o.code

/-- Turn after turn of a terminal. -/
partial def loop (t : Terminal) : IO Ending := do
  let made := t.turn (← IO.monoNanosNow)
  let out ← IO.getStdout
  out.putStr made.written
  out.flush
  match made.wish with
  | .leave ending => return ending
  | .time =>
    IO.sleep frame
    loop made.terminal
  | .line =>
    let line ← nextLine
    match made.terminal.answer (← IO.monoNanosNow) line with
    | .error ending => return ending
    | .ok t => loop t

/-- Does what the command line asks for, and returns the exit code. -/
def execute (argv : List String) : IO UInt32 := do
  match readRequest (← IO.getEnv "ESOLANGS_OPS_PER_MS") argv with
  | .error fault => report fault.outcome
  | .ok request =>
    let bytes ← readFile request.file
    let echoed ← (← IO.getStdin).isTty
    match prepare request bytes echoed (← IO.monoNanosNow) with
    | .error outcome => report outcome
    | .ok terminal => report (endOutcome (← loop terminal) "")

end EsoHost.Main

/-- The program. -/
def main (argv : List String) : IO UInt32 := EsoHost.Main.execute argv
