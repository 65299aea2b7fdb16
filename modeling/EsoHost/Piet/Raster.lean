import EsoHost.Piet.Heading

/-!
# `EsoHost.Piet.Raster`: rectangular arrays addressed by codel

A `Codel` names a place by column and row, counted from the top left.
A `Raster` holds one value for each place of a rectangle, row by row.
Grids of colors and maps from codels to blocks are both rasters.

* `Raster.get?_set` says that writing changes one place and no other.
* `Raster.mem_codels_iff` says that scanning meets exactly the places
  inside the rectangle.
-/

set_option autoImplicit false

namespace EsoHost.Piet

/-! ### Codels -/

/-- A place: column `x` and row `y`, both counted from zero. -/
structure Codel where
  x : Nat
  y : Nat
  deriving DecidableEq, Repr

namespace Codel

/-- The top left codel. -/
def origin : Codel := ⟨0, 0⟩

/-- The next codel towards `d`. Nothing lies left of the first column
or above the first row. -/
def towards? : Codel → Direction → Option Codel
  | ⟨x, y⟩, .right => some ⟨x + 1, y⟩
  | ⟨x, y⟩, .down => some ⟨x, y + 1⟩
  | ⟨0, _⟩, .left => none
  | ⟨x + 1, y⟩, .left => some ⟨x, y⟩
  | ⟨_, 0⟩, .up => none
  | ⟨x, y + 1⟩, .up => some ⟨x, y⟩

/-- The written form of a codel, `(x,y)`. -/
def text (c : Codel) : String := s!"({c.x},{c.y})"

end Codel

/-! ### Rasters -/

/-- One value for each codel of a `width` by `height` rectangle. -/
structure Raster (α : Type) where
  width : Nat
  height : Nat
  /-- The values in scan order: row by row, each from left to right. -/
  cells : Array α
  size_cells : cells.size = width * height

namespace Raster

variable {α : Type}

/-- The raster that holds `a` everywhere. -/
def replicate (width height : Nat) (a : α) : Raster α where
  width := width
  height := height
  cells := Array.replicate (width * height) a
  size_cells := Array.size_replicate

/-- The codel lies inside the rectangle. -/
def Contains (r : Raster α) (c : Codel) : Prop := c.x < r.width ∧ c.y < r.height

instance (r : Raster α) (c : Codel) : Decidable (r.Contains c) :=
  inferInstanceAs (Decidable (_ ∧ _))

/-- The place of a codel in scan order. Meaningful for codels inside
the rectangle. -/
def index (r : Raster α) (c : Codel) : Nat := c.y * r.width + c.x

/-- The place of a codel inside the rectangle is one of the array. -/
theorem index_lt {r : Raster α} {c : Codel} (h : r.Contains c) :
    r.index c < r.cells.size := by
  have hrow : (c.y + 1) * r.width ≤ r.height * r.width :=
    Nat.mul_le_mul_right _ h.2
  have hx := h.1
  rw [Nat.add_mul, Nat.one_mul] at hrow
  rw [r.size_cells, Nat.mul_comm, index]
  omega

/-- Two codels inside the rectangle with one index are one codel. -/
theorem index_inj {r : Raster α} {c d : Codel} (hc : r.Contains c) (hd : r.Contains d)
    (h : r.index c = r.index d) : c = d := by
  obtain ⟨cx, cy⟩ := c
  obtain ⟨dx, dy⟩ := d
  have hcx : cx < r.width := hc.1
  have hdx : dx < r.width := hd.1
  have hpos : 0 < r.width := by omega
  -- The column is the remainder by the width, and the row the quotient.
  have hx := congrArg (· % r.width) h
  have hy := congrArg (· / r.width) h
  simp only [index, Nat.mul_add_mod_self_right, Nat.mod_eq_of_lt hcx,
    Nat.mod_eq_of_lt hdx] at hx
  simp only [index, Nat.mul_comm _ r.width, Nat.mul_add_div hpos,
    Nat.div_eq_of_lt hcx, Nat.div_eq_of_lt hdx, Nat.add_zero] at hy
  rw [hx, hy]

/-- The value at a codel, or nothing outside the rectangle. -/
def get? (r : Raster α) (c : Codel) : Option α :=
  if h : r.Contains c then
    have := index_lt h
    some r.cells[r.index c]
  else
    none

/-- Writes `a` at a codel. Outside the rectangle nothing changes. -/
def set (r : Raster α) (c : Codel) (a : α) : Raster α :=
  if h : r.Contains c then
    { width := r.width
      height := r.height
      cells := r.cells.set (r.index c) a (index_lt h)
      size_cells := by rw [Array.size_set, r.size_cells] }
  else
    r

/-- Writing does not change the width. -/
@[simp]
theorem width_set (r : Raster α) (c : Codel) (a : α) : (r.set c a).width = r.width := by
  unfold set
  split <;> rfl

/-- Writing does not change the height. -/
@[simp]
theorem height_set (r : Raster α) (c : Codel) (a : α) : (r.set c a).height = r.height := by
  unfold set
  split <;> rfl

/-- Writing does not change which codels lie inside. -/
theorem contains_set {r : Raster α} {c d : Codel} {a : α} :
    (r.set c a).Contains d ↔ r.Contains d := by
  simp only [Contains, width_set, height_set]

/-- A raster holds a value exactly at the codels inside it. -/
theorem isSome_get? {r : Raster α} {c : Codel} : (r.get? c).isSome ↔ r.Contains c := by
  unfold get?
  split
  · rename_i h; simp [h]
  · rename_i h; simp [h]

/-- A raster holds nothing exactly at the codels outside it. -/
theorem get?_eq_none {r : Raster α} {c : Codel} : r.get? c = none ↔ ¬ r.Contains c := by
  rw [← isSome_get?]
  simp

/-- Writing at a codel inside the raster changes that codel and no
other. -/
theorem get?_set {r : Raster α} {c d : Codel} {a : α} (h : r.Contains c) :
    (r.set c a).get? d = if d = c then some a else r.get? d := by
  have hset : r.set c a =
      { width := r.width
        height := r.height
        cells := r.cells.set (r.index c) a (index_lt h)
        size_cells := by rw [Array.size_set, r.size_cells] } := by
    unfold set
    rw [dif_pos h]
  by_cases hd : r.Contains d
  · have hd' : (r.set c a).Contains d := contains_set.mpr hd
    unfold get?
    rw [dif_pos hd', dif_pos hd]
    simp only [hset, index]
    by_cases hdc : d = c
    · subst hdc
      simp
    · -- Another codel has another place, which is not written to.
      have hne : r.index c ≠ r.index d := fun e => hdc (index_inj h hd e).symm
      rw [if_neg hdc]
      congr 1
      exact Array.getElem_set_ne _ (index_lt hd) hne
  · have hd' : ¬ (r.set c a).Contains d := fun e => hd (contains_set.mp e)
    rw [get?_eq_none.mpr hd', get?_eq_none.mpr hd]
    rw [if_neg]
    rintro rfl
    exact hd h

/-- The neighbour of `c` towards `d`, if it lies inside the
rectangle. -/
def step (r : Raster α) (c : Codel) (d : Direction) : Option Codel :=
  (c.towards? d).filter fun n => r.Contains n

/-- All codels of the rectangle in scan order. -/
def codels (r : Raster α) : List Codel :=
  (List.range r.height).flatMap fun y => (List.range r.width).map fun x => ⟨x, y⟩

/-- Scanning meets exactly the codels inside the rectangle. -/
theorem mem_codels_iff {r : Raster α} {c : Codel} : c ∈ r.codels ↔ r.Contains c := by
  obtain ⟨x, y⟩ := c
  simp only [codels, List.mem_flatMap, List.mem_map, List.mem_range, Codel.mk.injEq, Contains]
  constructor
  · rintro ⟨_, hy, _, hx, rfl, rfl⟩
    exact ⟨hx, hy⟩
  · rintro ⟨hx, hy⟩
    exact ⟨y, hy, x, hx, rfl, rfl⟩

/-- The neighbours of a codel inside the rectangle: to the right,
below, to the left and above, where there are such. -/
def neighbours (r : Raster α) (c : Codel) : List Codel :=
  Direction.all.filterMap (r.step c)

end Raster

end EsoHost.Piet
