import EsoHost.Session
import EsoHost.Text.Lines

/-!
# `EsoHost.Terminal`: a run on lines of input and a stream of output

The terminal makes bursts and writes out what the transcript gains by
each. When the program waits for input, it types the next line of
input; when there is none left, it stops the run.

A line that was typed becomes part of the transcript. If somebody
typed it by hand, they see it already, and it is not written out again
(`Screen.countTyped`).

One turn is `Terminal.turn`, and `Terminal.answer` if it asks for a
line. `Terminal.run` makes turns on a list of lines. It takes the clock
as a function from the number of a reading to its time, and nothing is
known about the times. It counts its turns, because a program may run
for ever.
-/

set_option autoImplicit false

namespace EsoHost

/-! ### Screens -/

/-- A stream of output that follows a transcript. -/
@[ext]
structure Screen where
  /-- What is typed shows without being written. -/
  echoed : Bool
  /-- All that was written. -/
  output : String
  /-- How many characters of the transcript show. -/
  shown : Nat
  deriving DecidableEq, Repr

namespace Screen

/-- A screen on which nothing was written yet. -/
def blank (echoed : Bool) : Screen := ⟨echoed, "", 0⟩

/-- The part of a transcript that does not show yet. -/
def unshown (s : Screen) (contents : String) : String :=
  String.ofList (contents.toList.drop s.shown)

/-- Writes the part of a transcript that does not show yet. -/
def flush (s : Screen) (contents : String) : Screen :=
  if s.shown < contents.length then
    { s with
      output := s.output ++ s.unshown contents
      shown := contents.length }
  else
    s

/-- Takes note of a line that was typed. If it has become part of the
transcript and was echoed, it shows. -/
def countTyped (s : Screen) (outcome : Transcript.Offer) (line : String) : Screen :=
  if outcome = .accepted ∧ s.echoed then { s with shown := s.shown + line.length } else s

end Screen

/-! ### Terminals -/

/-- A session and how much of its transcript shows. -/
structure Terminal extends Screen where
  session : Session

/-- How a terminal run ends. -/
inductive Ending where
  | finished (reason : HaltReason)
  /-- A line of input is not UTF-8. -/
  | undecodable
  deriving DecidableEq, Repr

/-- What a terminal wants after a turn. -/
inductive Wish where
  /-- The run has ended. -/
  | leave (ending : Ending)
  /-- The program needs time. -/
  | time
  /-- The program waits for a line. -/
  | line
  deriving DecidableEq, Repr

/-- What comes of a turn. -/
structure Turn where
  terminal : Terminal
  /-- The text that the turn has written. -/
  written : String
  wish : Wish

namespace Terminal

/-- A terminal on which nothing was written yet. -/
def new (echoed : Bool) (session : Session) : Terminal where
  toScreen := .blank echoed
  session := session

/-- The part of the transcript that does not show yet. -/
def unshown (t : Terminal) : String := t.toScreen.unshown t.session.transcript.contents

/-- Writes the part of the transcript that does not show yet. -/
def flush (t : Terminal) : Terminal :=
  { t with toScreen := t.toScreen.flush t.session.transcript.contents }

/-- Makes a burst. -/
def burst (t : Terminal) (now : Nat) : Terminal := { t with session := t.session.burst now }

/-- Types a line. -/
def type (t : Terminal) (line : String) : Terminal :=
  let line := Text.endLine line
  let (outcome, session) := t.session.offer (t.session.transcript.contents ++ line)
  { toScreen := t.toScreen.countTyped outcome line, session }

/-- Stops the run, because there is no more input. -/
def hangUp (t : Terminal) (now : Nat) : Terminal := { t with session := t.session.stop [now] }

/-- What a terminal wants, going by the state of its session. -/
def wish (t : Terminal) : Wish :=
  match t.session.state with
  | .finished reason => .leave (.finished reason)
  | .idle => .leave (.finished .stopped)
  | .running => .time
  | .awaitingInput => .line

/-- Makes one turn: a burst, after which all of the transcript shows. -/
def turn (t : Terminal) (now : Nat) : Turn :=
  let t := t.burst now
  { terminal := t.flush, written := t.unshown, wish := t.flush.wish }

/-- Goes on with the line that was wanted, or hangs up at time `now` if
there is none left. A line that has no text ends the run. -/
def answer (t : Terminal) (now : Nat) : Option (Option String) → Except Ending Terminal
  | none => .ok (t.hangUp now)
  | some none => .error .undecodable
  | some (some line) => .ok (t.type line)

/-- Runs for at most `turns` turns, of which this is turn number `turn`.
Returns how the run ended, the terminal at the end and the lines that
were left, or nothing if the turns did not suffice. Turn `n` reads the
clock for the times number `2 * n` and, to stop, `2 * n + 1`. -/
def run (clock : Nat → Nat) :
    (turns turn : Nat) → Terminal → List (Option String) →
      Option (Ending × Terminal × List (Option String))
  | 0, _, _, _ => none
  | turns + 1, turn, t, lines =>
    let made := t.turn (clock (2 * turn))
    match made.wish with
    | .leave ending => some (ending, made.terminal, lines)
    | .time => run clock turns (turn + 1) made.terminal lines
    | .line =>
      match made.terminal.answer (clock (2 * turn + 1)) lines.head? with
      | .error ending => some (ending, made.terminal, lines.tail)
      | .ok t => run clock turns (turn + 1) t lines.tail

end Terminal

end EsoHost
