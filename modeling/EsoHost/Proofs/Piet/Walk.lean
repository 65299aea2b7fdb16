import Mathlib.Logic.Function.Iterate
import Mathlib.Tactic.Common
import EsoHost.Piet.Slide
import EsoHost.Proofs.Piet.Region

/-!
# `EsoHost.Proofs.Piet.Walk`: the unbounded walk through white

`slide` walks through white with a list of the stances it has taken
and a bound on its strides. The walk itself needs neither:
`Stance.walk g s n` is where it stands after `n` moves from `s`, for
every `n`. `Stance.Slides` says how a walk that starts on white ends,
in terms of this sequence alone: on the first colored codel, or at the
first stance that comes up for the second time.

* `Stance.slides_slide`: `slide` ends as the walk does. The bound is
  never met, because the stances of a walk lie inside the grid and a
  grid has eight for each codel.
* `Stance.Slides.unique`: a walk ends in one way only. After a
  repeated stance it goes round for ever (`walk_mem_of_repeat`), so it
  does not reach color later.
-/

set_option autoImplicit false

namespace EsoHost.Piet

namespace Grid

instance (g : Grid) (c : Codel) : Decidable (g.Open c) :=
  match h : g.get? c with
  | none => isFalse fun ⟨_, hcolor, _⟩ => absurd (h.symm.trans hcolor) (by simp)
  | some color =>
    if hblack : color = .black then
      isFalse fun ⟨_, hcolor, hne⟩ => hne (Option.some.inj (hcolor.symm.trans h) ▸ hblack)
    else
      isTrue ⟨color, h, hblack⟩

/-- The codel is white. -/
def IsWhite (g : Grid) (c : Codel) : Prop := g.get? c = some .white

/-- The codel has one of the eighteen colors. -/
def IsColored (g : Grid) (c : Codel) : Prop :=
  ∃ hue lightness, g.get? c = some (.chromatic hue lightness)

variable {g : Grid} {c : Codel}

/-- White can be entered. -/
theorem IsWhite.open (h : g.IsWhite c) : g.Open c := ⟨.white, h, by simp⟩

/-- So can a color. -/
theorem IsColored.open (h : g.IsColored c) : g.Open c := by
  obtain ⟨hue, lightness, hcolor⟩ := h
  exact ⟨_, hcolor, by simp⟩

/-- No codel is white and colored. -/
theorem IsColored.not_isWhite (h : g.IsColored c) : ¬ g.IsWhite c := by
  obtain ⟨hue, lightness, hcolor⟩ := h
  intro hwhite
  exact absurd (hcolor.symm.trans hwhite) (by simp)

/-- A codel that can be entered is white or colored. -/
theorem Open.white_or_colored (h : g.Open c) : g.IsWhite c ∨ g.IsColored c := by
  obtain ⟨color, hcolor, hne⟩ := h
  cases color with
  | chromatic hue lightness => exact Or.inr ⟨hue, lightness, hcolor⟩
  | white => exact Or.inl hcolor
  | black => exact absurd rfl hne

end Grid

/-- Where a slide ends. -/
def Landing.stance : Landing → Stance
  | .colored s => s
  | .trapped s => s

namespace Stance

/-! ### The walk -/

/-- The codel ahead, if it can be entered. -/
def ahead? (g : Grid) (s : Stance) : Option Codel :=
  (s.codel.towards? s.heading.dp).filter fun c => g.Open c

/-- One move: forward where the codel ahead can be entered, and else a
turn on the spot. -/
def walkOn (g : Grid) (s : Stance) : Stance :=
  match s.ahead? g with
  | some c => { s with codel := c }
  | none => { s with heading := s.heading.bounced }

/-- Where a walk from `s` stands after `n` moves. -/
def walk (g : Grid) (s : Stance) (n : Nat) : Stance := (walkOn g)^[n] s

/-- How the walk from `s` ends. -/
inductive Slides (g : Grid) (s : Stance) : Landing → Prop where
  /-- It reaches its first colored codel. -/
  | colored (n : Nat) (white : ∀ k < n, g.IsWhite (s.walk g k).codel)
      (color : g.IsColored (s.walk g n).codel) : Slides g s (.colored (s.walk g n))
  /-- It stays in white, and takes a stance for the second time. -/
  | trapped (n : Nat) (white : ∀ k ≤ n, g.IsWhite (s.walk g k).codel)
      (fresh : ∀ j k, j < k → k < n → s.walk g j ≠ s.walk g k)
      (again : ∃ k < n, s.walk g k = s.walk g n) : Slides g s (.trapped (s.walk g n))

section Walk

variable {g : Grid} {s : Stance}

/-- The last move of a walk. -/
theorem walk_succ (g : Grid) (s : Stance) (n : Nat) : s.walk g (n + 1) = (s.walk g n).walkOn g :=
  Function.iterate_succ_apply' (walkOn g) n s

/-- The codel ahead is the next one, provided that it is open. -/
theorem ahead?_eq_some_iff {c : Codel} :
    s.ahead? g = some c ↔ s.codel.towards? s.heading.dp = some c ∧ g.Open c := by
  simp [ahead?, Option.filter_eq_some_iff]

/-- A stride is a move of the walk. It lands if the move leads onto
color. -/
theorem stride_cases (h : g.IsWhite s.codel) :
    (s.stride g = .on (s.walkOn g) ∧ g.IsWhite (s.walkOn g).codel) ∨
    (s.stride g = .landed (s.walkOn g) ∧ g.IsColored (s.walkOn g).codel) := by
  cases hahead : s.ahead? g with
  | some c =>
    obtain ⟨hnext, hopen⟩ := ahead?_eq_some_iff.mp hahead
    have hwalk : s.walkOn g = { s with codel := c } := by simp only [walkOn, hahead]
    obtain ⟨color, hcolor, -⟩ := id hopen
    have hstep : g.step s.codel s.heading.dp = some c :=
      Raster.step_eq_some_iff.mpr ⟨hnext, Raster.contains_of_get? hcolor⟩
    rw [hwalk]
    rcases hopen.white_or_colored with hwhite | hchromatic
    · refine Or.inl ⟨?_, hwhite⟩
      simp only [stride, hstep, show g.get? c = some .white from hwhite]
    · obtain ⟨hue, lightness, hcolor⟩ := id hchromatic
      refine Or.inr ⟨?_, hchromatic⟩
      simp only [stride, hstep, hcolor]
  | none =>
    have hwalk : s.walkOn g = { s with heading := s.heading.bounced } := by
      simp only [walkOn, hahead]
    rw [hwalk]
    refine Or.inl ⟨?_, h⟩
    -- Nothing ahead can be entered: it lies outside, or it is black.
    have hclosed : ∀ c, g.step s.codel s.heading.dp = some c → ¬ g.Open c := by
      intro c hstep hopen
      have hnext := (Raster.step_eq_some_iff.mp hstep).1
      exact absurd (hahead.symm.trans (ahead?_eq_some_iff.mpr ⟨hnext, hopen⟩)) (by simp)
    unfold stride
    split
    · rfl
    · rename_i c hstep
      have hshut := hclosed c hstep
      split
      · rfl
      · rfl
      · rename_i hwhite
        exact absurd (Grid.IsWhite.open hwhite) hshut
      · rename_i hue lightness hcolor
        exact absurd (Grid.IsColored.open ⟨hue, lightness, hcolor⟩) hshut

/-! ### The bound -/

/-- All stances on the codels of a grid. -/
def all (g : Grid) : List Stance := g.codels.flatMap fun c => Heading.all.map fun h => ⟨c, h⟩

/-- There are eight stances for each codel. -/
theorem length_all (g : Grid) : (all g).length = 8 * g.size := by
  have hheadings : Heading.all.length = 8 := rfl
  simp only [all, List.length_flatMap, List.length_map, hheadings, List.map_const',
    List.sum_replicate_nat, Raster.length_codels, Grid.size, Nat.mul_comm]

/-- Every stance inside the grid is one of them. -/
theorem mem_all {t : Stance} (h : g.Contains t.codel) : t ∈ all g := by
  obtain ⟨c, q⟩ := t
  refine List.mem_flatMap.mpr ⟨c, Raster.mem_codels_iff.mpr h, List.mem_map.mpr ⟨q, ?_, rfl⟩⟩
  obtain ⟨dp, cc⟩ := q
  cases dp <;> cases cc <;> decide

/-- The stances that a walk has taken before move `n`, as `slide` keeps
them. -/
structure Walked (g : Grid) (s : Stance) (n : Nat) (seen : List Stance) : Prop where
  white : ∀ k ≤ n, g.IsWhite (s.walk g k).codel
  fresh : ∀ j k, j < k → k < n → s.walk g j ≠ s.walk g k
  nodup : seen.Nodup
  length_eq : seen.length = n
  mem_iff : ∀ t, t ∈ seen ↔ ∃ k < n, s.walk g k = t

/-- A walk begins on white, and has no stance behind it. -/
theorem walked_nil (h : g.IsWhite s.codel) : Walked g s 0 [] where
  white k hk := by
    obtain rfl : k = 0 := by omega
    exact h
  fresh j k _ hk := absurd hk (Nat.not_lt_zero k)
  nodup := List.nodup_nil
  length_eq := rfl
  mem_iff t := by simp

/-- One stride further in white. -/
theorem Walked.on {n : Nat} {seen : List Stance} (h : Walked g s n seen)
    (hnew : s.walk g n ∉ seen) (hwhite : g.IsWhite (s.walk g (n + 1)).codel) :
    Walked g s (n + 1) (s.walk g n :: seen) := by
  refine ⟨?_, ?_, List.nodup_cons.mpr ⟨hnew, h.nodup⟩, by simp [h.length_eq], ?_⟩
  · intro k hk
    rcases Nat.lt_or_eq_of_le hk with hk | rfl
    · exact h.white k (by omega)
    · exact hwhite
  · intro j k hjk hk
    rcases Nat.lt_or_eq_of_le (Nat.le_of_lt_succ hk) with hk | rfl
    · exact h.fresh j k hjk hk
    · exact fun heq => hnew ((h.mem_iff _).mpr ⟨j, hjk, heq⟩)
  · intro t
    rw [List.mem_cons, h.mem_iff]
    constructor
    · rintro (rfl | ⟨k, hk, rfl⟩)
      · exact ⟨n, by omega, rfl⟩
      · exact ⟨k, by omega, rfl⟩
    · rintro ⟨k, hk, rfl⟩
      rcases Nat.lt_or_eq_of_le (Nat.le_of_lt_succ hk) with hk | rfl
      · exact Or.inr ⟨k, hk, rfl⟩
      · exact Or.inl rfl

/-- The stances taken are different ones inside the grid, so there are
at most eight for each codel. -/
theorem Walked.le_size {n : Nat} {seen : List Stance} (h : Walked g s n seen) :
    n ≤ 8 * g.size := by
  have hsub : seen ⊆ all g := by
    intro t ht
    obtain ⟨k, hk, rfl⟩ := (h.mem_iff t).mp ht
    exact mem_all (Raster.contains_of_get? (h.white k (by omega)))
  have hlen := h.nodup.length_le_of_subset hsub
  rwa [h.length_eq, length_all] at hlen

/-- Walking on from move `n` with strides to spare ends as the walk
does. -/
theorem slides_slideFrom {strides n : Nat} {seen : List Stance} (h : Walked g s n seen)
    (hspare : 8 * g.size < strides + n) :
    Slides g s (slideFrom g strides seen (s.walk g n)) := by
  induction strides generalizing n seen with
  | zero =>
    -- The bound has been met, but there are not so many stances.
    have := h.le_size
    omega
  | succ strides ih =>
    unfold slideFrom
    split
    · rename_i hseen
      exact Slides.trapped n h.white h.fresh ((h.mem_iff _).mp hseen)
    · rename_i hnew
      rcases stride_cases (h.white n (Nat.le_refl n)) with ⟨hstride, hwhite⟩ | ⟨hstride, hcolor⟩
      · rw [← walk_succ] at hstride hwhite
        rw [hstride]
        exact ih (h.on hnew hwhite) (by omega)
      · rw [← walk_succ] at hstride hcolor
        rw [hstride]
        exact Slides.colored (n + 1) (fun k hk => h.white k (by omega)) hcolor

/-- `slide` ends as the walk does. -/
theorem slides_slide (h : g.IsWhite s.codel) : Slides g s (slide g s) :=
  slides_slideFrom (walked_nil h) (by omega)

/-- A walk through white ends on a codel that is not black. -/
theorem Slides.open {l : Landing} (h : Slides g s l) : g.Open l.stance.codel := by
  cases h with
  | colored n _ hcolor => exact hcolor.open
  | trapped n hwhite _ _ => exact (hwhite n (Nat.le_refl n)).open

/-! ### One ending only -/

/-- A walk that repeats a stance takes no new ones from then on. -/
theorem walk_mem_of_repeat {k m : Nat} (hk : k < m) (hagain : s.walk g k = s.walk g m) (n : Nat) :
    ∃ j < m, s.walk g n = s.walk g j := by
  induction n with
  | zero => exact ⟨0, by omega, rfl⟩
  | succ n ih =>
    obtain ⟨j, hj, heq⟩ := ih
    have hsucc : s.walk g (n + 1) = s.walk g (j + 1) := by rw [walk_succ, heq, ← walk_succ]
    -- The walk goes on as it did after `j`, and from the last new stance
    -- back to `k`.
    rcases Nat.lt_or_eq_of_le hj with hj | hj
    · exact ⟨j + 1, hj, hsucc⟩
    · exact ⟨k, hk, by rw [hsucc, show j + 1 = m from hj, hagain]⟩

/-- A walk that is trapped never reaches color. -/
theorem isWhite_walk_of_repeat {m : Nat} (hwhite : ∀ k ≤ m, g.IsWhite (s.walk g k).codel)
    (hagain : ∃ k < m, s.walk g k = s.walk g m) (n : Nat) : g.IsWhite (s.walk g n).codel := by
  obtain ⟨k, hk, hagain⟩ := hagain
  obtain ⟨j, hj, heq⟩ := walk_mem_of_repeat hk hagain n
  rw [heq]
  exact hwhite j (by omega)

/-- A walk ends in one way only. -/
theorem Slides.unique {l l' : Landing} (h : Slides g s l) (h' : Slides g s l') : l = l' := by
  cases h with
  | colored n hwhite hcolor =>
    cases h' with
    | colored n' hwhite' hcolor' =>
      -- The earlier of two landings would lie in the white of the later walk.
      rcases Nat.lt_trichotomy n n' with hlt | rfl | hlt
      · exact absurd (hwhite' n hlt) hcolor.not_isWhite
      · rfl
      · exact absurd (hwhite n' hlt) hcolor'.not_isWhite
    | trapped n' hwhite' hfresh' hagain' =>
      exact absurd (isWhite_walk_of_repeat hwhite' hagain' n) hcolor.not_isWhite
  | trapped n hwhite hfresh hagain =>
    cases h' with
    | colored n' hwhite' hcolor' =>
      exact absurd (isWhite_walk_of_repeat hwhite hagain n') hcolor'.not_isWhite
    | trapped n' hwhite' hfresh' hagain' =>
      obtain ⟨k, hk, hagain⟩ := hagain
      obtain ⟨k', hk', hagain'⟩ := hagain'
      -- The earlier of two repetitions would lie among the fresh stances of
      -- the later walk.
      rcases Nat.lt_trichotomy n n' with hlt | rfl | hlt
      · exact absurd hagain (hfresh' k n hk hlt)
      · rfl
      · exact absurd hagain' (hfresh k' n' hk' hlt)

end Walk

end Stance

end EsoHost.Piet
