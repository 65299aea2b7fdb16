/-!
# `EsoHost.Brainfuck.Program`: reading Brainfuck

Eight characters are commands; all others are comments. Each bracket
is read as a jump that knows the place of its partner. Places count
commands only.
-/

set_option autoImplicit false

namespace EsoHost.Brainfuck

/-- A command. Jumps carry the place of the matching bracket. -/
inductive Command where
  | right | left
  | increment | decrement
  | output | input
  /-- `[`: goes past the matching `]` if the cell is zero. -/
  | jumpForward (close : Nat)
  /-- `]`: goes back past the matching `[` unless the cell is zero. -/
  | jumpBack (start : Nat)
  deriving DecidableEq, Repr

/-- A bracket without a partner, and its place. -/
structure UnmatchedBracket where
  position : Nat
  deriving DecidableEq, Repr

/-- The wording of the error. -/
def UnmatchedBracket.message (e : UnmatchedBracket) : String :=
  s!"unmatched bracket at offset {e.position}"

/-- The commands of a program. -/
abbrev Program := Array Command

/-- A program read in part: its commands so far, and the places of the
brackets that are still open, the innermost first. An open bracket is
written as a jump to place 0 until its partner comes. -/
structure Draft where
  commands : Program
  opened : List Nat
  deriving DecidableEq, Repr

namespace Draft

/-- Appends a command. -/
def push (p : Draft) (c : Command) : Draft := { p with commands := p.commands.push c }

/-- Reads one character. -/
def read : Draft → Char → Except UnmatchedBracket Draft
  | p, '>' => .ok (p.push .right)
  | p, '<' => .ok (p.push .left)
  | p, '+' => .ok (p.push .increment)
  | p, '-' => .ok (p.push .decrement)
  | p, '.' => .ok (p.push .output)
  | p, ',' => .ok (p.push .input)
  | ⟨commands, opened⟩, '[' =>
    .ok ⟨commands.push (.jumpForward 0), commands.size :: opened⟩
  | ⟨commands, opened⟩, ']' =>
    match opened with
    | [] => .error ⟨commands.size⟩
    | start :: opened =>
      let close := commands.size
      .ok ⟨(commands.setIfInBounds start (.jumpForward close)).push (.jumpBack start), opened⟩
  | p, _ => .ok p

end Draft

/-- Reads a program. The error names the first `]` that closes
nothing or, failing that, the last `[` that is never closed. -/
def parse (source : String) : Except UnmatchedBracket Program := do
  let read ← source.toList.foldlM Draft.read ⟨#[], []⟩
  match read.opened with
  | [] => .ok read.commands
  | position :: _ => .error ⟨position⟩

end EsoHost.Brainfuck
