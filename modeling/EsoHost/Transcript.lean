import EsoHost.Text.Decimal
import EsoHost.Text.Whitespace

/-!
# `EsoHost.Transcript`: the text shared by a program and its user

A transcript holds everything that was printed and everything that was
typed, in one text that only grows. The user types by offering a
longer text: if it extends the transcript and ends in a line feed, the
addition becomes the input record from which the program reads
(`Transcript.offer`).

An interactive transcript may get any number of records, each
replacing what is left of the one before. A staged transcript gets its
input first, as one record; its final line feed is read as NUL, and
the banner that announces the run is printed after it.
-/

set_option autoImplicit false

namespace EsoHost

/-! ### Readings -/

/-- The result of reading from a record. -/
inductive Reading (α : Type) where
  | ready (value : α)
  /-- Input was consumed, but it is no value. -/
  | malformed
  /-- Nothing is left to read. -/
  | exhausted
  deriving DecidableEq, Repr

/-- Changes the value of a reading. -/
def Reading.map {α β : Type} (f : α → β) : Reading α → Reading β
  | .ready a => .ready (f a)
  | .malformed => .malformed
  | .exhausted => .exhausted

/-- Numbers may be preceded by white space and by NUL. -/
def isFiller (c : Char) : Bool := Text.isWhiteSpace c || c = '\x00'

/-- Reads a number and returns what is left. A number is an optional
sign and as many digits as follow. A sign alone is consumed, and so is
a single character that starts no number; a number that fits no 64-bit
word is consumed as a whole. -/
def readNumber (record : List Char) : Reading Int64 × List Char :=
  match record.dropWhile isFiller with
  | [] => (.exhausted, [])
  | first :: rest =>
    let signed := first = '-' ∨ first = '+'
    let body := if signed then rest else first :: rest
    let digits := body.takeWhile Char.isDigit
    if digits = [] then
      (.malformed, rest)
    else
      match Text.wordOf? (Text.signedValue (first = '-') digits) with
      | some n => (.ready n, body.dropWhile Char.isDigit)
      | none => (.malformed, body.dropWhile Char.isDigit)

/-! ### Transcripts -/

/-- How a run gets its input. -/
inductive InputMode where
  /-- A read that finds nothing waits for the next line. -/
  | interactive
  /-- All input is given before the run; no read waits. -/
  | staged
  deriving DecidableEq, Repr

/-- The text shared by a program and its user. -/
structure Transcript where
  mode : InputMode
  /-- All that was printed and typed so far. -/
  contents : String
  /-- What is left to read of the last record. -/
  unread : List Char
  /-- A staged transcript that has not got its record yet. -/
  opening : Bool
  deriving DecidableEq, Repr

namespace Transcript

/-- Announces that the program runs. -/
def runBanner : String := "### Running...\n\n"

/-- Asks for the input of a staged run. -/
def inputBanner : String := "### Input:\n\n"

/-- Announces that the program has stopped. -/
def stopBanner : String := "\n### Stopped.\n"

/-- The transcript at the start of a run. -/
def fresh : InputMode → Transcript
  | .interactive => ⟨.interactive, runBanner, [], false⟩
  | .staged => ⟨.staged, inputBanner, [], true⟩

/-- Reads that find nothing have to wait. -/
def isInteractive (t : Transcript) : Bool := t.mode = .interactive

/-- Something is left to read. -/
def hasPending (t : Transcript) : Bool := !t.unread.isEmpty

/-! ### Printing -/

/-- Prints a text. -/
def print (t : Transcript) (text : String) : Transcript :=
  { t with contents := t.contents ++ text }

/-- Printing adds to the end. -/
@[simp]
theorem contents_print (t : Transcript) (text : String) :
    (t.print text).contents = t.contents ++ text := rfl

/-- A program does not read what it prints. -/
@[simp]
theorem unread_print (t : Transcript) (text : String) : (t.print text).unread = t.unread := rfl

/-- Prints line feeds until the transcript ends in one, or in two if
`doubled`. -/
def printLineBreak (t : Transcript) (doubled : Bool) : Transcript :=
  let present := (t.contents.toList.reverse.takeWhile (· = '\n')).length
  let wanted := if doubled then 2 else 1
  t.print (String.ofList (List.replicate (wanted - present) '\n'))

/-- Prints the notice that ends a run, on a line of its own. -/
def printStop (t : Transcript) : Transcript := (t.printLineBreak false).print stopBanner

/-! ### Typing -/

/-- What becomes of an offered text. -/
inductive Offer where
  /-- The addition is the new record. -/
  | accepted
  /-- The text extends the transcript, but its last line is not
  finished. -/
  | pending
  /-- The text does not extend the transcript. -/
  | rejected
  deriving DecidableEq, Repr

/-- The user's view of the transcript. A text that extends it and ends
in a line feed is accepted; nothing else changes the transcript. -/
def offer (t : Transcript) (text : String) : Offer × Transcript :=
  match t.contents.toList.isPrefixOf? text.toList with
  | none | some [] => (.rejected, t)
  | some added =>
    if added.getLast? ≠ some '\n' then
      (.pending, t)
    else if t.opening then
      let typed : Transcript :=
        { t with contents := text, unread := added.dropLast ++ ['\x00'], opening := false }
      (.accepted, (typed.printLineBreak true).print runBanner)
    else
      (.accepted, { t with contents := text, unread := added })

/-- The user types at the end of the transcript. -/
def type (t : Transcript) (line : String) : Offer × Transcript :=
  t.offer (t.contents ++ line)

/-! ### Reading -/

/-- Reads one character of the record. -/
def readChar (t : Transcript) : Reading Char × Transcript :=
  match t.unread with
  | [] => (.exhausted, t)
  | c :: rest => (.ready c, { t with unread := rest })

/-- Reads a number from the record. -/
def readNumber (t : Transcript) : Reading Int64 × Transcript :=
  let (reading, rest) := EsoHost.readNumber t.unread
  (reading, { t with unread := rest })

end Transcript

end EsoHost
