import EsoHost.Piet.Color
import EsoHost.Piet.Raster

/-!
# `EsoHost.Piet.Grid`: grids of colors

A Piet program is a rectangle of colors with at least one codel.
`Grid.ofRows` builds it from rows and names what is wrong with rows
that make no such rectangle.
-/

set_option autoImplicit false

namespace EsoHost.Piet

/-- Why rows of colors make no grid. -/
inductive GridError where
  /-- There is no first row, or it holds no codel. -/
  | empty
  /-- The first row whose length differs from that of row 0. -/
  | ragged (row expected found : Nat)
  deriving DecidableEq, Repr

/-- The wording of a grid error. -/
def GridError.message : GridError → String
  | .empty => "codel grid is empty"
  | .ragged row expected found => s!"row {row} has {found} codels, expected {expected}"

/-- A rectangle of colors with at least one codel. -/
structure Grid extends Raster Color where
  width_pos : 0 < width
  height_pos : 0 < height

namespace Grid

/-- The first row that is not `width` long: its number and its
length. -/
def raggedRow? (width : Nat) (rows : List (List Color)) : Option (Nat × Nat) :=
  (rows.zipIdx.find? fun (row, _) => row.length ≠ width).map fun (row, n) => (n, row.length)

/-- If no ragged row is found, all rows have the width. -/
theorem raggedRow?_eq_none {width : Nat} {rows : List (List Color)}
    (h : raggedRow? width rows = none) : ∀ row ∈ rows, row.length = width := by
  intro row hrow
  obtain ⟨i, hi, rfl⟩ := List.mem_iff_getElem.mp hrow
  rw [raggedRow?, Option.map_eq_none_iff, List.find?_eq_none] at h
  -- The row and its number are among the pairs that were searched.
  have hmem : (rows[i], i) ∈ rows.zipIdx := by
    rw [List.mem_zipIdx_iff_getElem?, List.getElem?_eq_getElem hi]
  simpa using h _ hmem

/-- No ragged row is found exactly if there is none. -/
theorem raggedRow?_eq_none_iff {width : Nat} {rows : List (List Color)} :
    raggedRow? width rows = none ↔ ∀ row ∈ rows, row.length = width := by
  refine ⟨raggedRow?_eq_none, fun h => ?_⟩
  rw [raggedRow?, Option.map_eq_none_iff, List.find?_eq_none]
  rintro ⟨row, n⟩ hmem
  have hrow : row ∈ rows := (List.mem_zipIdx' hmem).2 ▸ List.getElem_mem _
  simpa using h row hrow

/-- Rows of one length fill a rectangle. -/
theorem length_flatten {width : Nat} {rows : List (List Color)}
    (h : ∀ row ∈ rows, row.length = width) : rows.flatten.length = width * rows.length := by
  induction rows with
  | nil => rfl
  | cons row rows ih =>
    rw [List.flatten_cons, List.length_append, h row List.mem_cons_self,
      ih fun r hr => h r (List.mem_cons_of_mem _ hr), List.length_cons, Nat.mul_succ, Nat.add_comm]

/-- The grid with the given rows, which have to be non-empty and of one
length. A missing or empty first row is reported before any ragged
row. -/
def ofRows (rows : List (List Color)) : Except GridError Grid :=
  if hw : 0 < (rows.headD []).length then
    match h : raggedRow? (rows.headD []).length rows with
    | some (row, found) => .error (.ragged row (rows.headD []).length found)
    | none =>
      .ok
        { width := (rows.headD []).length
          height := rows.length
          cells := rows.flatten.toArray
          size_cells := length_flatten (raggedRow?_eq_none h)
          width_pos := hw
          height_pos := by cases rows with
            | nil => exact absurd hw (Nat.lt_irrefl 0)
            | cons row rows => exact Nat.succ_pos _ }
  else
    .error .empty

/-- The number of codels. -/
def size (g : Grid) : Nat := g.width * g.height

/-- The place of a codel in scan order as a 64-bit word. It is given
for any codel, inside the grid or not, and wraps where it does not
fit. -/
def position (g : Grid) (c : Codel) : UInt64 := UInt64.ofNat (g.index c)

end Grid

end EsoHost.Piet
