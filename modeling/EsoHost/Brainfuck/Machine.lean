import EsoHost.Brainfuck.Program
import EsoHost.Brainfuck.Tape
import EsoHost.Status
import EsoHost.Transcript

/-!
# `EsoHost.Brainfuck.Machine`: running a Brainfuck program

Each step executes the command at `next`. Reads and writes go through
the transcript: a byte is printed as the character of that code point,
and of a character that is read the low byte is kept. A read that
finds nothing waits in an interactive run, and in a staged run leaves
the cell as it is.
-/

set_option autoImplicit false

namespace EsoHost.Brainfuck

/-! ### Commands -/

/-- What a command leaves behind: the place to go on at, the tape, the
transcript and the state of the machine. -/
structure Effect where
  next : Nat
  tape : Tape
  transcript : Transcript
  status : Status
  deriving DecidableEq

/-- Executes a command at place `place`. Every command but a jump goes
on at the place after it, and so does a jump that is not taken; a read
that has to wait stays where it is. -/
def Command.execute (place : Nat) (tape : Tape) (t : Transcript) : Command → Effect
  | .right => ⟨place + 1, tape.moveRight, t, .running⟩
  | .left => ⟨place + 1, tape.moveLeft, t, .running⟩
  | .increment => ⟨place + 1, tape.modify (· + 1), t, .running⟩
  | .decrement => ⟨place + 1, tape.modify (· - 1), t, .running⟩
  | .output =>
    let printed := t.print (String.singleton (Char.ofNat tape.cell.toNat))
    ⟨place + 1, tape, printed, .running⟩
  | .input =>
    match t.readChar with
    | (.ready c, t) => ⟨place + 1, tape.modify fun _ => UInt8.ofNat c.toNat, t, .running⟩
    | (.malformed, t) => ⟨place + 1, tape, t, .running⟩
    | (.exhausted, t) =>
      if t.isInteractive then ⟨place, tape, t, .awaitingInput⟩
      else ⟨place + 1, tape, t, .running⟩
  | .jumpForward close => ⟨(if tape.cell = 0 then close else place) + 1, tape, t, .running⟩
  | .jumpBack start => ⟨(if tape.cell = 0 then place else start) + 1, tape, t, .running⟩

/-! ### Machines -/

/-- A Brainfuck program in execution. -/
structure Machine where
  program : Program
  /-- The place of the command to be executed next. -/
  next : Nat
  tape : Tape
  status : Status
  /-- How many commands were tried. -/
  steps : Nat

namespace Machine

/-- The machine before its first step. -/
def load (program : Program) : Machine where
  program := program
  next := 0
  tape := .blank
  status := .running
  steps := 0

/-- Makes one step. A halted machine stays as it is. The end of the
program is noticed by a step that is not counted. -/
def step : Machine → Transcript → Machine × Transcript
  | ⟨program, next, tape, status, steps⟩, t =>
    if status.isHalted then
      (⟨program, next, tape, status, steps⟩, t)
    else
      match program[next]? with
      | none => (⟨program, next, tape, .halted .endOfProgram, steps⟩, t)
      | some command =>
        let effect := command.execute next tape t
        (⟨program, effect.next, effect.tape, effect.status, steps + 1⟩, effect.transcript)

/-- Halts the machine, if it has not halted yet. -/
def stop (m : Machine) : Machine := { m with status := m.status.stop }

end Machine

end EsoHost.Brainfuck
