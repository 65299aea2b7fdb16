import Mathlib.Data.List.Nodup
import EsoHost.Proofs.Piet.Region

/-!
# `EsoHost.Proofs.Piet.Rectangle`: a grid is its rows

A grid keeps its colors in one array, row after row, and finds the color
of a codel by its place in scan order. This module shows that nothing of
this is visible: a grid made from rows answers as the rows themselves
would.

* `IsRectangle` says which rows make a grid, and `GridError.Describes`
  what is wrong with all others. `Grid.exists_ofRows_iff` and
  `Grid.ofRows_eq_error_iff` show that rows are accepted and refused
  accordingly.
* `getElem?_flatten`, by induction on the rows, is the one place where a
  place in the array is taken apart into row and column.
* `Grid.Mirrors` and `Grid.IsScanned` say what it means to look up a
  codel and to scan the grid; `Grid.step_eq_some_iff_offset` and
  `Grid.step_eq_some_iff_opposite` say where a step leads.
* `rows_make_their_grid` puts these together.
-/

set_option autoImplicit false

namespace EsoHost.Piet

/-! ### Rows that make a grid -/

/-- There is a first row, it is not empty, and all rows have its
length. -/
def IsRectangle (rows : List (List Color)) : Prop :=
  ∃ first, rows.head? = some first ∧ first ≠ [] ∧ ∀ row ∈ rows, row.length = first.length

/-- What is wrong with rows that make no grid. -/
inductive GridError.Describes (rows : List (List Color)) : GridError → Prop where
  /-- The first row is missing. -/
  | missing (eq_nil : rows = []) : Describes rows .empty
  /-- The first row is empty. -/
  | blank (head_eq : rows.head? = some []) : Describes rows .empty
  /-- The first row is not empty, the row with number `n` has another
  length, and all before it have that of the first. -/
  | ragged {n : Nat} {first row : List Color} (head_eq : rows.head? = some first)
      (ne_nil : first ≠ []) (row_eq : rows[n]? = some row) (differs : row.length ≠ first.length)
      (earlier : ∀ k < n, ∀ row, rows[k]? = some row → row.length = first.length) :
      Describes rows (.ragged n first.length row.length)

namespace Grid

/-- The ragged row that is found is the first one. -/
theorem raggedRow?_eq_some_iff {width n found : Nat} {rows : List (List Color)} :
    raggedRow? width rows = some (n, found) ↔
      ∃ row, rows[n]? = some row ∧ row.length = found ∧ row.length ≠ width ∧
        ∀ k < n, ∀ row, rows[k]? = some row → row.length = width := by
  simp only [raggedRow?, Option.map_eq_some_iff, List.find?_eq_some_iff_getElem, Prod.exists,
    List.getElem_zipIdx, List.length_zipIdx, Nat.zero_add, Prod.mk.injEq]
  constructor
  · rintro ⟨row, _, ⟨hdiffers, n, hn, ⟨hrow, rfl⟩, hearlier⟩, rfl, rfl⟩
    refine ⟨row, ?_, rfl, by simpa using hdiffers, fun k hk other hother => ?_⟩
    · rw [List.getElem?_eq_getElem hn, hrow]
    · obtain ⟨-, rfl⟩ := List.getElem?_eq_some_iff.mp hother
      simpa using hearlier k hk
  · rintro ⟨row, hrow, rfl, hdiffers, hearlier⟩
    obtain ⟨hn, rfl⟩ := List.getElem?_eq_some_iff.mp hrow
    refine ⟨_, n, ⟨by simpa using hdiffers, n, hn, ⟨rfl, rfl⟩, fun k hk => ?_⟩, rfl, rfl⟩
    simpa using hearlier k hk _ (List.getElem?_eq_getElem (Nat.lt_trans hk hn))

/-- How rows with a first row that is not empty are taken. -/
theorem ofRows_cases {rows : List (List Color)} {first : List Color}
    (hfirst : rows.head? = some first) (hne : first ≠ []) :
    (∃ g, ofRows rows = .ok g) ∧ raggedRow? first.length rows = none ∨
      ∃ n found, ofRows rows = .error (.ragged n first.length found) ∧
        raggedRow? first.length rows = some (n, found) := by
  have hhead : rows.headD [] = first := by rw [List.headD_eq_head?_getD, hfirst]; rfl
  subst hhead
  unfold ofRows
  rw [dif_pos (List.length_pos_of_ne_nil hne)]
  split
  · rename_i n found hragged
    exact Or.inr ⟨n, found, rfl, hragged⟩
  · rename_i hnone
    exact Or.inl ⟨⟨_, rfl⟩, hnone⟩

/-- Without a first row, or with an empty one, there is no grid. -/
theorem ofRows_of_nil {rows : List (List Color)} (h : rows.headD [] = []) :
    ofRows rows = .error .empty := by
  unfold ofRows
  rw [dif_neg (by rw [h]; exact Nat.lt_irrefl 0)]

/-- Rows make a grid exactly if they make a rectangle. -/
theorem exists_ofRows_iff {rows : List (List Color)} :
    (∃ g, ofRows rows = .ok g) ↔ IsRectangle rows := by
  constructor
  · rintro ⟨g, hg⟩
    by_cases hblank : rows.headD [] = []
    · rw [ofRows_of_nil hblank] at hg
      cases hg
    · cases rows with
      | nil => exact absurd rfl hblank
      | cons first rest =>
        rcases @ofRows_cases (first :: rest) first rfl hblank with
          ⟨-, hnone⟩ | ⟨n, found, herror, -⟩
        · exact ⟨first, rfl, hblank, raggedRow?_eq_none hnone⟩
        · rw [herror] at hg
          cases hg
  · rintro ⟨first, hfirst, hne, hlengths⟩
    rcases ofRows_cases hfirst hne with ⟨hok, -⟩ | ⟨n, found, -, hragged⟩
    · exact hok
    · rw [raggedRow?_eq_none_iff.mpr hlengths] at hragged
      cases hragged

/-- An error describes what is wrong with the rows, and what is wrong
with them gives that error. -/
theorem ofRows_eq_error_iff {rows : List (List Color)} {error : GridError} :
    ofRows rows = .error error ↔ error.Describes rows := by
  constructor
  · intro h
    cases rows with
    | nil =>
      rw [ofRows_of_nil rfl] at h
      cases h
      exact .missing rfl
    | cons first rest =>
      -- The three cases are those of the description: no row, an empty first
      -- row, a ragged row.
      by_cases hne : first = []
      · subst hne
        rw [ofRows_of_nil rfl] at h
        cases h
        exact .blank rfl
      · rcases @ofRows_cases (first :: rest) first rfl hne with
          ⟨⟨g, hg⟩, -⟩ | ⟨n, found, herror, hragged⟩
        · rw [hg] at h
          cases h
        · rw [herror] at h
          cases h
          obtain ⟨row, hrow, rfl, hdiffers, hearlier⟩ := raggedRow?_eq_some_iff.mp hragged
          exact .ragged rfl hne hrow hdiffers hearlier
  · intro h
    cases h with
    | missing hnil => exact ofRows_of_nil (by rw [hnil]; rfl)
    | blank hhead => exact ofRows_of_nil (by rw [List.headD_eq_head?_getD, hhead]; rfl)
    | ragged hhead hne hrow hdiffers hearlier =>
      have hragged := raggedRow?_eq_some_iff.mpr ⟨_, hrow, rfl, hdiffers, hearlier⟩
      rcases ofRows_cases hhead hne with ⟨-, hnone⟩ | ⟨n, found, herror, hfound⟩
      · rw [hnone] at hragged
        cases hragged
      · rw [hfound] at hragged
        cases hragged
        exact herror

/-! ### Looking up codels -/

/-- The grid answers as its rows do. -/
structure Mirrors (g : Grid) (rows : List (List Color)) : Prop where
  /-- The codels inside are those for which there is a color. -/
  contains_iff : ∀ x y, g.Contains ⟨x, y⟩ ↔ ∃ row, rows[y]? = some row ∧ x < row.length
  /-- There, the color is that of the row. -/
  inside : ∀ x y, g.Contains ⟨x, y⟩ →
    ∃ row color, rows[y]? = some row ∧ row[x]? = some color ∧ g.get? ⟨x, y⟩ = some color
  outside : ∀ x y, ¬ g.Contains ⟨x, y⟩ → g.get? ⟨x, y⟩ = none

/-- What a grid is made of. -/
theorem ofRows_eq_ok {rows : List (List Color)} {g : Grid} (h : ofRows rows = .ok g) :
    g.height = rows.length ∧ g.cells = rows.flatten.toArray ∧
      ∀ row ∈ rows, row.length = g.width := by
  unfold ofRows at h
  split at h
  · split at h
    · cases h
    · rename_i hnone
      cases h
      exact ⟨rfl, rfl, raggedRow?_eq_none hnone⟩
  · cases h

/-- Rows of one length, laid end to end: the place `y * width + x` is
column `x` of row `y`. -/
theorem getElem?_flatten {width x y : Nat} {rows : List (List Color)}
    (h : ∀ row ∈ rows, row.length = width) (hx : x < width) :
    rows.flatten[y * width + x]? = rows[y]?.bind (·[x]?) := by
  induction rows generalizing y with
  | nil => simp
  | cons row rows ih =>
    have hrow : row.length = width := h row List.mem_cons_self
    have hrows : ∀ other ∈ rows, other.length = width :=
      fun other hother => h other (List.mem_cons_of_mem _ hother)
    rw [List.flatten_cons]
    cases y with
    | zero =>
      rw [Nat.zero_mul, Nat.zero_add, List.getElem?_append_left (by omega)]
      rfl
    | succ y =>
      -- A later row: its place is counted from the end of this one.
      have hplace : (y + 1) * width + x = row.length + (y * width + x) := by
        rw [hrow, Nat.succ_mul]
        omega
      rw [hplace, List.getElem?_append_right (Nat.le_add_right _ _), Nat.add_sub_cancel_left,
        ih hrows]
      rfl

/-- A grid answers as the rows that it was made from. -/
theorem mirrors_of_ofRows {rows : List (List Color)} {g : Grid} (h : ofRows rows = .ok g) :
    g.Mirrors rows := by
  obtain ⟨hheight, hcells, hlengths⟩ := ofRows_eq_ok h
  -- All rows have the width of the grid, so that the bound on `x` is the
  -- same in each of them.
  have hcontains : ∀ x y, g.Contains ⟨x, y⟩ ↔ ∃ row, rows[y]? = some row ∧ x < row.length := by
    intro x y
    constructor
    · rintro ⟨hx, hy⟩
      rw [hheight] at hy
      refine ⟨rows[y], List.getElem?_eq_getElem hy, ?_⟩
      rw [hlengths _ (List.getElem_mem hy)]
      exact hx
    · rintro ⟨row, hrow, hx⟩
      rw [hlengths row (List.mem_of_getElem? hrow)] at hx
      obtain ⟨hy, -⟩ := List.getElem?_eq_some_iff.mp hrow
      rw [← hheight] at hy
      exact ⟨hx, hy⟩
  refine ⟨hcontains, fun x y hin => ?_, fun x y => Raster.get?_eq_none.mpr⟩
  obtain ⟨row, hrow, hx⟩ := (hcontains x y).mp hin
  refine ⟨row, row[x], hrow, List.getElem?_eq_getElem hx, ?_⟩
  -- The color is looked up in the array, at the place that the codel has in the scan.
  have hplace : g.get? ⟨x, y⟩ = rows.flatten[y * g.width + x]? := by
    have harray : g.cells[g.index ⟨x, y⟩]? = g.get? ⟨x, y⟩ := by
      rw [Raster.get?, dif_pos hin]
      exact Array.getElem?_eq_getElem (Raster.index_lt hin)
    rw [← harray, hcells, List.getElem?_toArray]
    rfl
  rw [hplace, getElem?_flatten hlengths hin.1, hrow]
  exact List.getElem?_eq_getElem hx

/-! ### Scanning -/

/-- The scan meets all codels once, by their places. -/
structure IsScanned (g : Grid) : Prop where
  mem_iff : ∀ c, c ∈ g.codels ↔ g.Contains c
  nodup : g.codels.Nodup
  map_index : g.codels.map g.index = List.range g.size
  map_position : g.codels.map g.position = (List.range g.size).map UInt64.ofNat

/-- Row after row, the places count on. -/
theorem flatMap_range_places (width height : Nat) :
    (List.range height).flatMap (fun y => (List.range width).map (y * width + ·))
      = List.range (height * width) := by
  induction height with
  | zero => rw [Nat.zero_mul]; rfl
  | succ height ih =>
    rw [List.range_succ, List.flatMap_append, ih, Nat.succ_mul, List.range_add,
      List.flatMap_singleton]

/-- Every grid is scanned in the order of its places. -/
theorem isScanned (g : Grid) : g.IsScanned := by
  have hplaces : g.codels.map g.index = List.range g.size := by
    rw [size, Nat.mul_comm, ← flatMap_range_places, Raster.codels, List.map_flatMap]
    simp only [List.map_map]
    rfl
  refine ⟨fun _ => Raster.mem_codels_iff, ?_, hplaces, ?_⟩
  · exact List.Nodup.of_map g.index (by rw [hplaces]; exact List.nodup_range)
  · rw [← hplaces, List.map_map]
    rfl

end Grid

/-! ### Steps -/

/-- The next codel is one offset away. There is none where a coordinate
would be negative. -/
theorem Codel.towards?_eq_some_iff {c n : Codel} {d : Direction} :
    c.towards? d = some n ↔
      (n.x : Int) = c.x + d.offset.1 ∧ (n.y : Int) = c.y + d.offset.2 := by
  obtain ⟨x, y⟩ := c
  obtain ⟨x', y'⟩ := n
  cases d with
  | right => simp only [towards?, Direction.offset, Option.some.injEq, mk.injEq]; omega
  | down => simp only [towards?, Direction.offset, Option.some.injEq, mk.injEq]; omega
  | left =>
    cases x with
    | zero => simp only [towards?, Direction.offset, reduceCtorEq, false_iff]; omega
    | succ x => simp only [towards?, Direction.offset, Option.some.injEq, mk.injEq]; omega
  | up =>
    cases y with
    | zero => simp only [towards?, Direction.offset, reduceCtorEq, false_iff]; omega
    | succ y => simp only [towards?, Direction.offset, Option.some.injEq, mk.injEq]; omega

/-- A step leads one offset away, provided that this lies inside. -/
theorem Grid.step_eq_some_iff_offset {g : Grid} {c n : Codel} {d : Direction} :
    g.step c d = some n ↔ g.Contains n ∧
      (n.x : Int) = c.x + d.offset.1 ∧ (n.y : Int) = c.y + d.offset.2 := by
  rw [Raster.step_eq_some_iff, Codel.towards?_eq_some_iff, and_comm]

/-- The direction half a turn away. -/
def Direction.opposite : Direction → Direction
  | right => left
  | down => up
  | left => right
  | up => down

/-- Half a turn is two quarters. -/
theorem Direction.opposite_eq (d : Direction) : d.opposite = d.clockwise.clockwise := by
  cases d <;> rfl

/-- Two half turns are none. -/
@[simp]
theorem Direction.opposite_opposite (d : Direction) : d.opposite.opposite = d := by
  cases d <;> rfl

/-- A step can be taken back. -/
theorem Grid.step_opposite {g : Grid} {c n : Codel} {d : Direction} (hc : g.Contains c)
    (h : g.step c d = some n) : g.Contains n ∧ g.step n d.opposite = some c := by
  obtain ⟨hnext, hn⟩ := Raster.step_eq_some_iff.mp h
  rw [Direction.opposite_eq]
  exact ⟨hn, Raster.step_eq_some_iff.mpr ⟨Codel.towards?_opposite hnext, hc⟩⟩

/-- There is a step exactly if there is one back. -/
theorem Grid.step_eq_some_iff_opposite {g : Grid} {c n : Codel} {d : Direction}
    (hc : g.Contains c) :
    g.step c d = some n ↔ g.Contains n ∧ g.step n d.opposite = some c := by
  -- The step back can be taken back in turn.
  refine ⟨step_opposite hc, fun ⟨hn, hback⟩ => ?_⟩
  have hagain := (step_opposite hn hback).2
  rwa [Direction.opposite_opposite] at hagain

/-- Rows are taken as a grid exactly if they make a rectangle that is not
empty; else the error tells whether there is no first row to go by, or
which row is the first to have another length. The grid has the colors
of the rows, and nothing outside them. Its scan meets every codel once,
in the order of the places 0, 1, 2 and so on. A step leads one codel
on, unless that lies outside, and there is one from `c` to `n` exactly
if the opposite one leads back. -/
theorem rows_make_their_grid (rows : List (List Color)) :
    ((∃ g, Grid.ofRows rows = .ok g) ↔ IsRectangle rows) ∧
    (∀ error, Grid.ofRows rows = .error error ↔ error.Describes rows) ∧
    ∀ g, Grid.ofRows rows = .ok g →
      g.Mirrors rows ∧ g.IsScanned ∧
      (∀ c d n, g.step c d = some n ↔ g.Contains n ∧
        (n.x : Int) = c.x + d.offset.1 ∧ (n.y : Int) = c.y + d.offset.2) ∧
      ∀ c d n, g.Contains c →
        (g.step c d = some n ↔ g.Contains n ∧ g.step n d.opposite = some c) := by
  refine ⟨Grid.exists_ofRows_iff, fun _ => Grid.ofRows_eq_error_iff, fun g hg => ?_⟩
  exact ⟨Grid.mirrors_of_ofRows hg, g.isScanned, fun _ _ _ => Grid.step_eq_some_iff_offset,
    fun _ _ _ => Grid.step_eq_some_iff_opposite⟩

end EsoHost.Piet
