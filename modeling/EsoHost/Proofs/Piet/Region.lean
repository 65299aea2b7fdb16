import Mathlib.Logic.Relation
import EsoHost.Piet.Grid

/-!
# `EsoHost.Proofs.Piet.Region`: regions of one color

Two codels of a grid touch (`Grid.Touches`) if they lie side by side
and have one color. They are joined (`Grid.Joined`) if a path of
touching codels leads from one to the other. The codels joined to `c`
are its region (`Grid.region`): the definition speaks of colors and
neighbours only, and knows nothing of blocks.

* `Joined.symm` and `Joined.get?_eq`: being joined is symmetric, and
  joined codels have one color.
* `region_eq_of_joined`: joined codels have one region.
* `mem_neighbours_iff`: the neighbours that a raster lists are the
  codels beside a codel that lie inside.
* `pairwise_codels`: the scan meets the codels by increasing index.
-/

set_option autoImplicit false

namespace EsoHost.Piet

/-! ### Neighbours -/

/-- Half a turn leads back: what lies towards `dir` is left towards the
opposite direction. -/
theorem Codel.towards?_opposite {c d : Codel} {dir : Direction} (h : c.towards? dir = some d) :
    d.towards? dir.clockwise.clockwise = some c := by
  -- There is nothing to the left of column zero and above row zero.
  obtain ⟨x, y⟩ := c
  cases dir with
  | right => cases h; rfl
  | down => cases h; rfl
  | left =>
    cases x with
    | zero => exact absurd h (by simp [Codel.towards?])
    | succ x => cases h; rfl
  | up =>
    cases y with
    | zero => exact absurd h (by simp [Codel.towards?])
    | succ y => cases h; rfl

namespace Raster

variable {α : Type}

/-- A step leads to the next codel, provided that it lies inside. -/
theorem step_eq_some_iff {r : Raster α} {c d : Codel} {dir : Direction} :
    r.step c dir = some d ↔ c.towards? dir = some d ∧ r.Contains d := by
  simp [step, Option.filter_eq_some_iff]

/-- The neighbours are the codels beside a codel that lie inside. -/
theorem mem_neighbours_iff {r : Raster α} {c d : Codel} :
    d ∈ r.neighbours c ↔ (∃ dir, c.towards? dir = some d) ∧ r.Contains d := by
  simp only [neighbours, List.mem_filterMap, step_eq_some_iff]
  constructor
  · rintro ⟨dir, -, hnext, hin⟩
    exact ⟨⟨dir, hnext⟩, hin⟩
  · rintro ⟨⟨dir, hnext⟩, hin⟩
    -- All four directions are tried.
    exact ⟨dir, by cases dir <;> decide, hnext, hin⟩

/-- Only a codel inside has a value. -/
theorem contains_of_get? {r : Raster α} {c : Codel} {a : α} (h : r.get? c = some a) :
    r.Contains c :=
  isSome_get?.mp (by rw [h]; rfl)

/-- A raster of equal values has no other. -/
theorem eq_of_get?_replicate {width height : Nat} {c : Codel} {a b : α}
    (h : (replicate width height a).get? c = some b) : b = a := by
  unfold get? at h
  split at h
  · simpa [replicate] using h.symm
  · exact absurd h (by simp)

/-! ### Scan order -/

/-- The index of a codel grows from each codel of the scan to the
next ones. -/
theorem pairwise_codels (r : Raster α) :
    r.codels.Pairwise fun c d => r.index c < r.index d := by
  unfold codels
  rw [List.pairwise_flatMap]
  constructor
  · -- Inside one row, the columns count upwards.
    intro y _
    rw [List.pairwise_map]
    refine List.pairwise_lt_range.imp ?_
    intro a b hab
    simp only [index]
    omega
  · -- All of a row lies before all of a later row.
    refine List.pairwise_lt_range.imp ?_
    intro y y' hy c hc d hd
    obtain ⟨x, hx, rfl⟩ := List.mem_map.mp hc
    obtain ⟨x', -, rfl⟩ := List.mem_map.mp hd
    have hx : x < r.width := List.mem_range.mp hx
    have hrow : (y + 1) * r.width ≤ y' * r.width := Nat.mul_le_mul_right _ hy
    rw [Nat.add_mul, Nat.one_mul] at hrow
    simp only [index]
    omega

/-- The scan meets as many codels as there are. -/
theorem length_codels (r : Raster α) : r.codels.length = r.width * r.height := by
  simp only [codels, List.length_flatMap, List.length_map, List.length_range, List.map_const',
    List.sum_replicate_nat, Nat.mul_comm]

end Raster

/-! ### Regions -/

namespace Grid

/-- The codel lies inside the grid and is not black. -/
def Open (g : Grid) (c : Codel) : Prop := ∃ color, g.get? c = some color ∧ color ≠ .black

/-- The codels lie side by side and have one color. -/
def Touches (g : Grid) (c d : Codel) : Prop :=
  (∃ dir, c.towards? dir = some d) ∧ ∃ color, g.get? c = some color ∧ g.get? d = some color

/-- A path of touching codels leads from one codel to the other. -/
def Joined (g : Grid) : Codel → Codel → Prop := Relation.ReflTransGen g.Touches

/-- The codels joined to `c`. -/
def region (g : Grid) (c : Codel) : Set Codel := {d | g.Joined c d}

variable {g : Grid} {c d e : Codel}

/-- Touching goes both ways. -/
theorem Touches.symm (h : g.Touches c d) : g.Touches d c := by
  obtain ⟨⟨dir, hnext⟩, color, hc, hd⟩ := h
  exact ⟨⟨_, Codel.towards?_opposite hnext⟩, color, hd, hc⟩

/-- A codel is joined to itself. -/
theorem Joined.refl (g : Grid) (c : Codel) : g.Joined c c := Relation.ReflTransGen.refl

/-- Paths can be put together. -/
theorem Joined.trans (h : g.Joined c d) (h' : g.Joined d e) : g.Joined c e :=
  Relation.ReflTransGen.trans h h'

/-- And gone back. -/
theorem Joined.symm (h : g.Joined c d) : g.Joined d c := by
  induction h with
  | refl => exact Relation.ReflTransGen.refl
  | tail _ htouch ih => exact Relation.ReflTransGen.head htouch.symm ih

/-- A path of two codels. -/
theorem Touches.joined (h : g.Touches c d) : g.Joined c d := Relation.ReflTransGen.single h

/-- A region has one color. -/
theorem Joined.get?_eq (h : g.Joined c d) : g.get? c = g.get? d := by
  induction h with
  | refl => rfl
  | tail _ htouch ih =>
    obtain ⟨-, color, hmid, hend⟩ := htouch
    rw [ih, hmid, hend]

/-- A region can be entered everywhere or nowhere. -/
theorem Joined.open (h : g.Joined c d) (hc : g.Open c) : g.Open d := by
  obtain ⟨color, hcolor, hblack⟩ := hc
  exact ⟨color, h.get?_eq ▸ hcolor, hblack⟩

/-- Joined codels have one region. -/
theorem region_eq_of_joined (h : g.Joined c d) : g.region c = g.region d := by
  ext e
  exact ⟨fun he => h.symm.trans he, fun he => h.trans he⟩

/-- A property that touching codels hand on holds all over a region. -/
theorem Joined.induct {P : Codel → Prop} (h : g.Joined c d) (hc : P c)
    (hstep : ∀ a b, P a → g.Touches a b → P b) : P d := by
  induction h with
  | refl => exact hc
  | tail _ htouch ih => exact hstep _ _ ih htouch

end Grid

end EsoHost.Piet
