import Mathlib.Algebra.Group.Nat.Defs
import Mathlib.Order.SetNotation
import EsoHost.Piet.Exit
import EsoHost.Proofs.Piet.Region

/-!
# `EsoHost.Proofs.Piet.Exit`: the exit codel of a set of codels

`exitCodel?` works on a list and measures in 64-bit words. What it
finds depends on neither. `IsExit` says which codel of a set a heading
leads through: the one furthest towards the pointer's direction and,
among those equally far, furthest to the chooser's side, with
distances measured exactly. There is at most one such codel
(`IsExit.unique`), and `exitCodel?` finds it (`exitCodel?_eq_some_iff`),
provided that the coordinates fit the words (`Codel.Addressable`). The
maximum that decides may be reached at several places of the list, but
all of them hold the same codel (`exitCodel?_congr`).
`transition?_eq_some_iff` says what an entry of an exit table is.
-/

set_option autoImplicit false

namespace EsoHost.Piet

/-! ### Distances -/

/-- How far a codel lies towards a direction, as an exact number. -/
def Codel.distance (c : Codel) : Direction → Int
  | .right => c.x
  | .down => c.y
  | .left => -c.x
  | .up => -c.y

/-- The coordinates fit signed 64-bit words. -/
def Codel.Addressable (c : Codel) : Prop := c.x < 2 ^ 63 ∧ c.y < 2 ^ 63

/-- Measuring in words gives the exact distance. -/
theorem Codel.toInt_reach {c : Codel} (h : c.Addressable) (d : Direction) :
    (c.reach d).toInt = c.distance d := by
  have hx : (Int64.ofNat c.x).toInt = c.x := Int64.toInt_ofNat_of_lt h.1
  have hy : (Int64.ofNat c.y).toInt = c.y := Int64.toInt_ofNat_of_lt h.2
  cases d with
  | right =>
    show (Int64.ofNat c.x * 1 + Int64.ofNat c.y * 0).toInt = c.x
    simpa using hx
  | down =>
    show (Int64.ofNat c.x * 0 + Int64.ofNat c.y * 1).toInt = c.y
    simpa using hy
  | left =>
    show (Int64.ofNat c.x * -1 + Int64.ofNat c.y * 0).toInt = -c.x
    simpa using Int64.toInt_neg_ofNat_of_le (Nat.le_of_lt h.1)
  | up =>
    show (Int64.ofNat c.x * 0 + Int64.ofNat c.y * -1).toInt = -c.y
    simpa using Int64.toInt_neg_ofNat_of_le (Nat.le_of_lt h.2)

/-- A codel is known by its distances towards a heading's direction
and towards its side. -/
theorem Codel.eq_of_distance_eq {c d : Codel} {h : Heading}
    (hdp : c.distance h.dp = d.distance h.dp) (hside : c.distance h.side = d.distance h.side) :
    c = d := by
  obtain ⟨x, y⟩ := c
  obtain ⟨x', y'⟩ := d
  obtain ⟨dp, cc⟩ := h
  -- Direction and side lie on different axes, so the two distances are
  -- the two coordinates up to sign.
  cases dp <;> cases cc <;>
    simp only [Heading.side, Chooser.sideOf, Direction.clockwise, Direction.counterclockwise,
      distance] at hdp hside <;>
    simp only [Codel.mk.injEq] <;> omega

/-! ### Exits -/

/-- The codel through which heading `h` leads out of `cs`. -/
structure IsExit (cs : Set Codel) (h : Heading) (e : Codel) : Prop where
  mem : e ∈ cs
  furthest : ∀ d ∈ cs, d.distance h.dp ≤ e.distance h.dp
  outermost : ∀ d ∈ cs, d.distance h.dp = e.distance h.dp → d.distance h.side ≤ e.distance h.side

/-- A set of codels is left through one of them at most. -/
theorem IsExit.unique {cs : Set Codel} {h : Heading} {e e' : Codel} (he : IsExit cs h e)
    (he' : IsExit cs h e') : e = e' := by
  have hdp : e.distance h.dp = e'.distance h.dp :=
    Int.le_antisymm (he'.furthest e he.mem) (he.furthest e' he'.mem)
  have hside : e.distance h.side = e'.distance h.side :=
    Int.le_antisymm (he'.outermost e he.mem hdp) (he.outermost e' he'.mem hdp.symm)
  exact Codel.eq_of_distance_eq hdp hside

/-- A maximum is reached by a member of the list, and by no member
surpassed. -/
theorem maxOn?_spec {α : Type} {f : α → Int64} {xs : List α} {a : α}
    (h : xs.maxOn? f = some a) : a ∈ xs ∧ ∀ x ∈ xs, f x ≤ f a := by
  refine ⟨List.maxOn?_mem h, fun x hx => ?_⟩
  have hle := List.le_apply_get_maxOn?_of_mem (f := f) hx
  simpa only [h, Option.get_some] using hle

/-- A list with a member has a maximum. -/
theorem exists_maxOn?_of_mem {α : Type} (f : α → Int64) {xs : List α} {x : α} (hx : x ∈ xs) :
    ∃ a, xs.maxOn? f = some a :=
  Option.isSome_iff_exists.mp (List.isSome_maxOn?_of_mem hx)

/-- The edge of a list of codels consists of those that no other one
surpasses. -/
theorem mem_edge_iff {cs : List Codel} {d : Direction} {c : Codel} :
    c ∈ edge cs d ↔ c ∈ cs ∧ ∀ c' ∈ cs, c'.reach d ≤ c.reach d := by
  unfold edge
  split
  · rename_i top htop
    obtain ⟨hmem, hmax⟩ := maxOn?_spec htop
    rw [List.mem_filter, decide_eq_true_eq]
    constructor
    · rintro ⟨hc, hreach⟩
      refine ⟨hc, fun c' hc' => ?_⟩
      rw [hreach]
      exact hmax c' hc'
    · rintro ⟨hc, htop⟩
      exact ⟨hc, Int64.le_antisymm (hmax c hc) (htop top hmem)⟩
  · rename_i hnone
    constructor
    · intro hc
      exact absurd hc List.not_mem_nil
    · rintro ⟨hc, -⟩
      obtain ⟨top, htop⟩ := exists_maxOn?_of_mem (fun c => c.reach d) hc
      exact absurd (hnone.symm.trans htop) (by simp)

/-- The selection in words finds the exit of the set of codels. -/
theorem exitCodel?_eq_some_iff {cs : List Codel} (hfit : ∀ c ∈ cs, c.Addressable) {h : Heading}
    {e : Codel} : exitCodel? cs h = some e ↔ IsExit {c | c ∈ cs} h e := by
  -- Words and exact distances order the members of the list alike.
  have hle : ∀ c ∈ cs, ∀ c' ∈ cs, ∀ d, c.reach d ≤ c'.reach d ↔ c.distance d ≤ c'.distance d := by
    intro c hc c' hc' d
    rw [Int64.le_iff_toInt_le, Codel.toInt_reach (hfit c hc), Codel.toInt_reach (hfit c' hc')]
  -- What is found is an exit. The other direction follows, since there is
  -- one exit only.
  have hsound : ∀ e, exitCodel? cs h = some e → IsExit {c | c ∈ cs} h e := by
    intro e he
    obtain ⟨hedge, hside⟩ := maxOn?_spec he
    obtain ⟨hmem, hmax⟩ := mem_edge_iff.mp hedge
    refine ⟨hmem, fun d hd => (hle d hd e hmem _).mp (hmax d hd), fun d hd heq => ?_⟩
    have hedge : d ∈ edge cs h.dp := by
      refine mem_edge_iff.mpr ⟨hd, fun c hc => ?_⟩
      rw [hle c hc d hd, heq, ← hle c hc e hmem]
      exact hmax c hc
    exact (hle d hd e hmem _).mp (hside d hedge)
  constructor
  · exact hsound e
  · intro he
    have hedge : e ∈ edge cs h.dp :=
      mem_edge_iff.mpr ⟨he.mem, fun c hc => (hle c hc e he.mem _).mpr (he.furthest c hc)⟩
    obtain ⟨e', he'⟩ := exists_maxOn?_of_mem (fun c => c.reach h.side) hedge
    rw [he.unique (hsound e' he')]
    exact he'

/-- A region that is not empty has an exit codel, and it is one of its
codels. -/
theorem exists_exitCodel? {cs : List Codel} (hcs : cs ≠ []) (h : Heading) :
    ∃ e ∈ cs, exitCodel? cs h = some e := by
  obtain ⟨c, hc⟩ := List.exists_mem_of_ne_nil cs hcs
  obtain ⟨top, htop⟩ := exists_maxOn?_of_mem (fun c => c.reach h.dp) hc
  have hedge : top ∈ edge cs h.dp := mem_edge_iff.mpr (maxOn?_spec htop)
  obtain ⟨e, he⟩ := exists_maxOn?_of_mem (fun c => c.reach h.side) hedge
  exact ⟨e, (mem_edge_iff.mp (maxOn?_spec he).1).1, he⟩

/-- Only an empty region has no exit codel. -/
theorem exitCodel?_eq_none_iff {cs : List Codel} {h : Heading} :
    exitCodel? cs h = none ↔ cs = [] := by
  constructor
  · intro hnone
    by_contra hcs
    obtain ⟨e, -, he⟩ := exists_exitCodel? hcs h
    exact absurd (hnone.symm.trans he) (by simp)
  · rintro rfl
    rfl

/-- Lists of the same codels have the same exit. Their order does not
show, nor does a codel that is listed twice. -/
theorem exitCodel?_congr {cs cs' : List Codel} (hfit : ∀ c ∈ cs, c.Addressable)
    (hsame : ∀ c, c ∈ cs' ↔ c ∈ cs) (h : Heading) : exitCodel? cs' h = exitCodel? cs h := by
  have hfit' : ∀ c ∈ cs', c.Addressable := fun c hc => hfit c ((hsame c).mp hc)
  have hset : {c | c ∈ cs'} = {c | c ∈ cs} := Set.ext hsame
  ext e
  rw [exitCodel?_eq_some_iff hfit', exitCodel?_eq_some_iff hfit, hset]

/-! ### Transitions -/

/-- A transition leads from the exit codel to the codel beyond it. That
codel is open, and the transition names its block. -/
theorem transition?_eq_some_iff {g : Grid} {m : Membership} {b : Block} {h : Heading}
    {t : Transition} :
    transition? g m b h = some t ↔
      exitCodel? b.codels.toList h = some t.exit ∧ t.exit.towards? h.dp = some t.entry ∧
        g.Open t.entry ∧ m.blockAt? t.entry = some t.target := by
  constructor
  · intro ht
    obtain ⟨exit, hexit, ht⟩ := Option.bind_eq_some_iff.mp ht
    obtain ⟨entry, hstep, ht⟩ := Option.bind_eq_some_iff.mp ht
    obtain ⟨color, hcolor, ht⟩ := Option.bind_eq_some_iff.mp ht
    split at ht
    · exact absurd ht (by simp)
    · rename_i hne
      obtain ⟨target, htarget, ht⟩ := Option.bind_eq_some_iff.mp ht
      cases ht
      exact ⟨hexit, (Raster.step_eq_some_iff.mp hstep).1, ⟨color, hcolor, hne⟩, htarget⟩
  · rintro ⟨hexit, hnext, ⟨color, hcolor, hne⟩, htarget⟩
    have hstep : g.step t.exit h.dp = some t.entry :=
      Raster.step_eq_some_iff.mpr ⟨hnext, Raster.contains_of_get? hcolor⟩
    simp [transition?, hexit, hstep, hcolor, hne, htarget]

end EsoHost.Piet
