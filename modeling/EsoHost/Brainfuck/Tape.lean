/-!
# `EsoHost.Brainfuck.Tape`: the tape

The tape is a ring of 65536 bytes, with a head on one of them. Moving
past either end comes out at the other, and bytes wrap as well.
-/

set_option autoImplicit false

namespace EsoHost.Brainfuck

/-- The number of cells. -/
abbrev tapeSize : Nat := 65536

/-- A ring of bytes and the place of the head. -/
structure Tape where
  cells : Vector UInt8 tapeSize
  head : Fin tapeSize
  deriving DecidableEq

namespace Tape

/-- All cells zero, the head on the first. -/
def blank : Tape := ⟨Vector.replicate tapeSize 0, 0⟩

/-- The byte under the head. -/
def cell (t : Tape) : UInt8 := t.cells[t.head]

/-- Changes the byte under the head. -/
def modify (t : Tape) (f : UInt8 → UInt8) : Tape :=
  { t with cells := t.cells.set t.head (f t.cell) }

/-- The cell under the head is the one that changes. -/
@[simp]
theorem cell_modify (t : Tape) (f : UInt8 → UInt8) : (t.modify f).cell = f t.cell :=
  Vector.getElem_set_self _

/-- Moves the head to the right. -/
def moveRight (t : Tape) : Tape := { t with head := t.head + 1 }

/-- Moves the head to the left. -/
def moveLeft (t : Tape) : Tape := { t with head := t.head - 1 }

/-- A move to the left takes back a move to the right. -/
@[simp]
theorem moveLeft_moveRight (t : Tape) : t.moveRight.moveLeft = t := by
  have hring : ∀ n : Fin 65536, n + 1 - 1 = n := by omega
  simp only [moveLeft, moveRight, hring]

/-- A move to the right takes back a move to the left, also from the
first cell: the head comes round to the last one and back. -/
@[simp]
theorem moveRight_moveLeft (t : Tape) : t.moveLeft.moveRight = t := by
  have hring : ∀ n : Fin 65536, n - 1 + 1 = n := by omega
  simp only [moveLeft, moveRight, hring]

end Tape

end EsoHost.Brainfuck
