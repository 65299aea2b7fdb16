import EsoHost.Piet.Color
import EsoHost.Piet.Grid
import EsoHost.Text.Whitespace

/-!
# `EsoHost.Piet.SourceText`: grids as text

A grid is written one row to a line. A row is one or more cells
`#RRGGBB`, with spaces and tabs between them and, if one likes, before
the first and after the last. Blank lines are skipped, and so are
comments, which start with `;`.

Reading works on the characters of a line and hands on what is left
of them. Every character that is consumed before reading stops is
ASCII, so the column of an error counts bytes and characters alike.
-/

set_option autoImplicit false

namespace EsoHost.Piet

/-! ### Errors -/

/-- Why a text is no grid. Lines, columns and cells count from one. -/
inductive SourceError where
  /-- The line reads as a row up to this column and no further. -/
  | badCell (line column : Nat)
  /-- A cell is well written, but its color is not legal. -/
  | unknownColor (line cell : Nat) (color : Rgb)
  /-- The rows are well written, but form no grid. -/
  | grid (error : GridError)
  deriving DecidableEq, Repr

/-- The wording of a source error. -/
def SourceError.message : SourceError → String
  | .badCell line column => s!"line {line}: expected `#RRGGBB` cell at column {column}"
  | .unknownColor line cell color =>
    s!"line {line}, codel {cell}: {color.hex} is not a legal codel color"
  | .grid error => error.message

/-- What to make of a cell whose color is not legal. -/
inductive UnknownColors where
  | reject | asWhite | asBlack
  deriving DecidableEq, Repr

/-! ### Lines -/

/-- The lines of a text. A line feed ends a line, and carriage returns
before it belong to the line end; so do those at the end of the text.
The text after the last line feed is a line if it is not empty. -/
def lines (text : List Char) : List (List Char) :=
  let pieces := text.splitOn '\n'
  let ended := if pieces.getLast? = some [] then pieces.dropLast else pieces
  ended.map fun line => (line.reverse.dropWhile (· = '\r')).reverse

/-- The line holds no row: it is blank, or its first visible character
starts a comment. -/
def isSkipped (line : List Char) : Bool :=
  match line.dropWhile Text.isWhiteSpace with
  | [] => true
  | c :: _ => c = ';'

/-! ### Cells -/

/-- A character between cells. -/
def isGap (c : Char) : Bool := c = ' ' || c = '\t'

/-- The value of a hexadecimal digit in either case. -/
def hexValue? (c : Char) : Option Nat :=
  if '0' ≤ c ∧ c ≤ '9' then some (c.toNat - '0'.toNat)
  else if 'A' ≤ c ∧ c ≤ 'F' then some (c.toNat - 'A'.toNat + 10)
  else if 'a' ≤ c ∧ c ≤ 'f' then some (c.toNat - 'a'.toNat + 10)
  else none

/-- Reads two hexadecimal digits. -/
def readByte? : List Char → Option (UInt8 × List Char)
  | a :: b :: rest => do
    let high ← hexValue? a
    let low ← hexValue? b
    return (UInt8.ofNat (16 * high + low), rest)
  | _ => none

/-- Reads a cell and returns the rest. If it is no cell, the error is
the text from where it fails: before a missing `#`, or before the pair
of digits that is none. -/
def readCell : List Char → Except (List Char) (Rgb × List Char)
  | '#' :: afterHash =>
    match readByte? afterHash with
    | none => .error afterHash
    | some (red, afterRed) =>
      match readByte? afterRed with
      | none => .error afterRed
      | some (green, afterGreen) =>
        match readByte? afterGreen with
        | none => .error afterGreen
        | some (blue, rest) => .ok (⟨red, green, blue⟩, rest)
  | text => .error text

/-- A byte is two characters long. -/
theorem length_readByte? {text rest : List Char} {b : UInt8}
    (h : readByte? text = some (b, rest)) : text.length = rest.length + 2 := by
  unfold readByte? at h
  split at h
  · rename_i a c r
    cases ha : hexValue? a <;> cases hc : hexValue? c <;> simp [ha, hc] at h
    simp [← h.2]
  · cases h

/-- A cell is seven characters long. -/
theorem length_readCell {text rest : List Char} {cell : Rgb}
    (h : readCell text = .ok (cell, rest)) : text.length = rest.length + 7 := by
  unfold readCell at h
  split at h
  · rename_i afterHash
    split at h
    · cases h
    · rename_i hred
      split at h
      · cases h
      · rename_i hgreen
        split at h
        · cases h
        · rename_i hblue
          have h₁ := length_readByte? hred
          have h₂ := length_readByte? hgreen
          have h₃ := length_readByte? hblue
          simp only [Except.ok.injEq, Prod.mk.injEq] at h
          simp only [List.length_cons, ← h.2]
          omega
  · cases h

/-! ### Rows -/

/-- Reads the cells that follow a cell, each after a gap. Returns them
and the text after the last one. -/
def readCells (text : List Char) : List Rgb × List Char :=
  match _h : readCell (text.dropWhile isGap) with
  | .error _ => ([], text)
  | .ok (cell, rest) =>
    if text.head?.any isGap then
      let (cells, stop) := readCells rest
      (cell :: cells, stop)
    else
      ([], text)
termination_by text.length
decreasing_by
  have hcell := length_readCell _h
  have hgap := (List.dropWhile_sublist (p := isGap) (l := text)).length_le
  omega

/-- Reads a line as a row. If it is none, the error is the text from
where reading stopped: inside the first cell, or after the last good
cell and the gap that follows it. -/
def readRow (line : List Char) : Except (List Char) (List Rgb) :=
  match readCell (line.dropWhile isGap) with
  | .error stop => .error stop
  | .ok (cell, rest) =>
    let (cells, stop) := readCells rest
    match stop.dropWhile isGap with
    | [] => .ok (cell :: cells)
    | stop => .error stop

/-- The color of a cell: a legal color stands for itself, and for any
other the policy decides. -/
def UnknownColors.resolve? (unknown : UnknownColors) (rgb : Rgb) : Option Color :=
  match Color.ofRgb? rgb, unknown with
  | some color, _ => some color
  | none, .asWhite => some .white
  | none, .asBlack => some .black
  | none, .reject => none

/-- Reads the row on line number `line`. The whole row has to be well
written before any of its colors is looked at. -/
def readLine (unknown : UnknownColors) (text : List Char) (line : Nat) :
    Except SourceError (List Color) :=
  match readRow text with
  | .error stop => .error (.badCell line (text.length - stop.length + 1))
  | .ok cells =>
    (cells.zipIdx 1).mapM fun (rgb, n) =>
      match unknown.resolve? rgb with
      | some color => .ok color
      | none => .error (.unknownColor line n rgb)

/-- Reads the rows of a text. They may differ in length, and there may
be none. -/
def readRows (unknown : UnknownColors) (text : String) :
    Except SourceError (List (List Color)) :=
  let rows := ((lines text.toList).zipIdx 1).filter fun (line, _) => !isSkipped line
  rows.mapM fun (line, n) => readLine unknown line n

end EsoHost.Piet
