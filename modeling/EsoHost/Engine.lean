import EsoHost.Brainfuck.Machine
import EsoHost.Piet.Machine

/-!
# `EsoHost.Engine`: one program in execution, of either language
-/

set_option autoImplicit false

namespace EsoHost

/-- The languages that can be run. -/
inductive Language where
  | piet | brainfuck
  deriving DecidableEq, Repr

/-- The name of a language in lower case. -/
def Language.name : Language → String
  | .piet => "piet"
  | .brainfuck => "brainfuck"

/-- Why a program cannot be loaded. Nothing that a running program
does is an error. -/
inductive LoadError where
  | source (error : Piet.SourceError)
  | bracket (error : Brainfuck.UnmatchedBracket)
  deriving DecidableEq, Repr

/-- The wording of a load error. -/
def LoadError.message : LoadError → String
  | .source error => error.message
  | .bracket error => error.message

/-- A machine of either language. -/
inductive Engine where
  | piet (machine : Piet.Machine)
  | brainfuck (machine : Brainfuck.Machine)

namespace Engine

/-- The engine for a Brainfuck source. -/
def ofBrainfuck (source : String) : Except LoadError Engine := do
  let program ← (Brainfuck.parse source).mapError .bracket
  return .brainfuck (.load program)

/-- The engine for a Piet program. -/
def ofPiet (program : Piet.Program) (policy : Piet.ExhaustedInput) : Engine :=
  .piet (.load program policy)

/-- Makes one step. -/
def step : Engine → Transcript → Engine × Transcript
  | piet m, t =>
    let (m, t) := m.step t
    (piet m, t)
  | brainfuck m, t =>
    let (m, t) := m.step t
    (brainfuck m, t)

/-- The state after the last step. -/
def status : Engine → Status
  | piet m => m.status
  | brainfuck m => m.status

/-- Halts the engine, if it has not halted yet. -/
def stop : Engine → Engine
  | piet m => piet m.stop
  | brainfuck m => brainfuck m.stop

/-- The codel on which a Piet engine stands. -/
def position? : Engine → Option Piet.Codel
  | piet m => some m.pointer.codel
  | brainfuck _ => none

/-- The language of the program. -/
def language : Engine → Language
  | piet _ => .piet
  | brainfuck _ => .brainfuck

end Engine

end EsoHost
