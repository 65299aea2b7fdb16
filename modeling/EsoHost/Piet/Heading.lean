/-!
# `EsoHost.Piet.Heading`: direction pointer and codel chooser

The pointer faces one of four directions, and its chooser leans to the
left or the right of where it faces. Together they are a `Heading`;
there are eight.
-/

set_option autoImplicit false

namespace EsoHost.Piet

/-! ### The direction pointer -/

/-- Where the pointer faces, in clockwise order. -/
inductive Direction where
  | right | down | left | up
  deriving DecidableEq, Repr

namespace Direction

/-- All directions, clockwise from right. -/
def all : List Direction := [right, down, left, up]

/-- The place of a direction, counted clockwise from right. -/
def index : Direction → Nat
  | right => 0
  | down => 1
  | left => 2
  | up => 3

/-- The column and row offset of one move. Rows count downwards. -/
def offset : Direction → Int × Int
  | right => (1, 0)
  | down => (0, 1)
  | left => (-1, 0)
  | up => (0, -1)

/-- A quarter turn clockwise. -/
def clockwise : Direction → Direction
  | right => down
  | down => left
  | left => up
  | up => right

/-- A quarter turn counterclockwise. -/
def counterclockwise : Direction → Direction
  | right => up
  | down => right
  | left => down
  | up => left

/-- A turn to the right takes back a turn to the left. -/
@[simp]
theorem clockwise_counterclockwise (d : Direction) : d.counterclockwise.clockwise = d := by
  cases d <;> rfl

/-- A turn to the left takes back a turn to the right. -/
@[simp]
theorem counterclockwise_clockwise (d : Direction) : d.clockwise.counterclockwise = d := by
  cases d <;> rfl

/-- As many quarter turns as `turns` says: clockwise if it is positive,
counterclockwise if it is negative. Four turns change nothing, so only
the remainder from 0 to 3 counts. -/
def rotate (d : Direction) (turns : Int64) : Direction :=
  Nat.repeat clockwise (turns.toInt % 4).toNat d

end Direction

/-! ### The codel chooser -/

/-- The side to which the chooser leans. -/
inductive Chooser where
  | left | right
  deriving DecidableEq, Repr

namespace Chooser

/-- Both sides, left first. -/
def all : List Chooser := [left, right]

/-- The place of a side, counted from left. -/
def index : Chooser → Nat
  | left => 0
  | right => 1

/-- The other side. -/
def toggle : Chooser → Chooser
  | left => right
  | right => left

/-- There are two sides to lean to. -/
@[simp]
theorem toggle_toggle (c : Chooser) : c.toggle.toggle = c := by
  cases c <;> rfl

/-- The side after `times` toggles; only whether `times` is odd
counts. -/
def toggleTimes (c : Chooser) (times : Int64) : Chooser :=
  if times.toInt % 2 = 0 then c else c.toggle

/-- The absolute direction on the chooser's side of `d`. -/
def sideOf : Chooser → Direction → Direction
  | left, d => d.counterclockwise
  | right, d => d.clockwise

end Chooser

/-! ### Headings -/

/-- A direction together with a chooser. -/
structure Heading where
  /-- Where the pointer faces. -/
  dp : Direction
  /-- To which side the chooser leans. -/
  cc : Chooser
  deriving DecidableEq, Repr

namespace Heading

/-- All headings: the directions clockwise from right, and for each
the chooser left, then right. -/
def all : List Heading :=
  Direction.all.flatMap fun dp => Chooser.all.map fun cc => ⟨dp, cc⟩

/-- The place of a heading in `Heading.all`. -/
def index (h : Heading) : Nat := 2 * h.dp.index + h.cc.index

/-- There are eight headings. -/
theorem index_lt (h : Heading) : h.index < 8 := by
  obtain ⟨dp, cc⟩ := h
  cases dp <;> cases cc <;> decide

/-- The absolute direction in which the chooser leans. -/
def side (h : Heading) : Direction := h.cc.sideOf h.dp

/-- The chooser leans the other way. -/
def toggled (h : Heading) : Heading := { h with cc := h.cc.toggle }

/-- The pointer faces a quarter turn further clockwise. -/
def turned (h : Heading) : Heading := { h with dp := h.dp.clockwise }

/-- What a wall does to a walk through white: the chooser changes its
side and the pointer turns clockwise. -/
def bounced (h : Heading) : Heading := h.toggled.turned

/-- The headings in which the exits of a block are tried: from `h` on,
alternately toggling the chooser and turning the pointer, until all
eight headings have had their turn. -/
def attempts (h : Heading) : List Heading :=
  let both (q : Heading) : List Heading := [q, q.toggled]
  both h ++ both h.bounced ++ both h.bounced.bounced ++ both h.bounced.bounced.bounced

/-- No heading is left out of the attempts. -/
theorem mem_attempts (h h' : Heading) : h' ∈ h.attempts := by
  obtain ⟨dp, cc⟩ := h
  obtain ⟨dp', cc'⟩ := h'
  cases dp <;> cases cc <;> cases dp' <;> cases cc' <;> decide

end Heading

end EsoHost.Piet
