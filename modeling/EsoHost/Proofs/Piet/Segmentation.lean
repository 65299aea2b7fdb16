import Mathlib.Data.List.Nodup
import Mathlib.Tactic.Common
import EsoHost.Piet.Block
import EsoHost.Proofs.Piet.Region

/-!
# `EsoHost.Proofs.Piet.Segmentation`: blocks are the regions of a grid

`Partition.ofGrid` scans a grid and grows a block from each codel that
has none. This file shows that the blocks it finds are exactly the
regions of the codels that are not black, whatever their shapes, and
that they are numbered by their first codels in scan order
(`ofGrid_isSegmentation`).

The proof goes up three levels. Each has an invariant, a lemma for one
step and a lemma for the whole loop:

* `Ring.Offered`: the ring in the making holds the free codels of the
  block's color among those offered so far.
* `Flooded`: what was found so far is joined to the start, and all
  that touches a codel of a finished ring was found too. When no ring
  is left, nothing that is joined to the start can be missing.
* `Scanned`: every block so far is a whole region, and every codel
  scanned so far has its block. So a codel that is free when the scan
  reaches it has a region that is free as a whole.
-/

set_option autoImplicit false

namespace EsoHost.Piet

/-! ### Membership as a map -/

namespace Membership

/-- A codel has the block that its membership names. -/
theorem blockAt?_eq_some_iff {m : Membership} {c : Codel} {i : Nat} :
    m.blockAt? c = some i ↔ m.get? c = some (some i) := by
  rw [blockAt?, Option.join_eq_some_iff]

/-- It has none if it lies outside or is free. -/
theorem blockAt?_eq_none_iff {m : Membership} {c : Codel} :
    m.blockAt? c = none ↔ m.get? c = none ∨ m.IsFree c := by
  rw [blockAt?, Option.join_eq_none_iff, IsFree]

/-- Giving a codel to a block changes no other codel. -/
theorem get?_assign {m : Membership} {c d : Codel} {id : Nat} (h : m.IsFree c) :
    (m.assign c id).get? d = if d = c then some (some id) else m.get? d :=
  Raster.get?_set (Raster.contains_of_get? h)

end Membership

/-! ### One ring -/

/-- What a ring holds after the codels `cs` were offered to it, when
the membership was `m` before: each of them that was free and has the
color, once, and these now belong to block `id`. -/
structure Ring.Offered (g : Grid) (color : Color) (id : Nat) (m : Membership)
    (cs : List Codel) (s : Ring) : Prop where
  nodup : s.2.Nodup
  mem_iff : ∀ c, c ∈ s.2 ↔ c ∈ cs ∧ m.IsFree c ∧ g.get? c = some color
  get?_eq : ∀ c, s.1.get? c = if c ∈ s.2 then some (some id) else m.get? c

section Ring

variable {g : Grid} {color : Color} {id : Nat} {m : Membership} {cs : List Codel} {s : Ring}

/-- A ring starts empty. -/
theorem Ring.offered_nil : Ring.Offered g color id m [] (m, []) where
  nodup := List.nodup_nil
  mem_iff c := by simp
  get?_eq c := by simp

/-- A codel is free after some offers if it was free before them and
was not taken. -/
theorem Ring.Offered.isFree_iff (h : Ring.Offered g color id m cs s) (c : Codel) :
    s.1.IsFree c ↔ c ∉ s.2 ∧ m.IsFree c := by
  unfold Membership.IsFree
  rw [h.get?_eq]
  by_cases hc : c ∈ s.2 <;> simp [hc]

/-- One more offer. -/
theorem Ring.Offered.offer (h : Ring.Offered g color id m cs s) (c : Codel) :
    Ring.Offered g color id m (cs ++ [c]) (s.offer g color id c) := by
  unfold Ring.offer
  split
  · rename_i htaken
    obtain ⟨hnot, hfree⟩ := (h.isFree_iff c).mp htaken.1
    refine ⟨?_, ?_, ?_⟩
    · exact List.nodup_cons.mpr ⟨hnot, h.nodup⟩
    · intro d
      simp only [List.mem_cons, List.mem_append, List.not_mem_nil, or_false, h.mem_iff]
      constructor
      · rintro (rfl | ⟨hd, hrest⟩)
        · exact ⟨Or.inr rfl, hfree, htaken.2⟩
        · exact ⟨Or.inl hd, hrest⟩
      · rintro ⟨hd | rfl, hrest⟩
        · exact Or.inr ⟨hd, hrest⟩
        · exact Or.inl rfl
    · intro d
      rw [Membership.get?_assign htaken.1, h.get?_eq]
      by_cases hdc : d = c <;> simp [hdc]
  · rename_i hleft
    refine ⟨h.nodup, ?_, h.get?_eq⟩
    intro d
    rw [h.mem_iff, List.mem_append, List.mem_singleton]
    constructor
    · rintro ⟨hd, hrest⟩
      exact ⟨Or.inl hd, hrest⟩
    · rintro ⟨hd | rfl, hfree, hcolor⟩
      · exact ⟨hd, hfree, hcolor⟩
      · -- It was not taken this time, so it was taken before.
        rw [← h.mem_iff]
        by_contra hd
        exact hleft ⟨(h.isFree_iff d).mpr ⟨hd, hfree⟩, hcolor⟩

/-- Any number of further offers. -/
theorem Ring.Offered.foldl (h : Ring.Offered g color id m cs s) (more : List Codel) :
    Ring.Offered g color id m (cs ++ more) (more.foldl (Ring.offer g color id) s) := by
  induction more generalizing cs s with
  | nil => simpa using h
  | cons c more ih => simpa using ih (h.offer c)

/-- The ring around `ring` holds each free codel of the color that lies
beside a codel of `ring`. -/
theorem offered_nextRing (g : Grid) (color : Color) (id : Nat) (ring : List Codel)
    (m : Membership) :
    Ring.Offered g color id m (ring.flatMap g.neighbours) (nextRing g color id ring m) :=
  Ring.offered_nil.foldl (ring.flatMap g.neighbours)

end Ring

/-! ### One block -/

/-- The state of a flood of block `id` from `start`, when the
membership was `m₀` before it: the codels of the finished rings are
`found`, those of the open ring are `ring`, and `m` is the membership
now. -/
structure Flooded (g : Grid) (id : Nat) (start : Codel) (m₀ : Membership) (ring : List Codel)
    (m : Membership) (found : Array Codel) : Prop where
  nodup : (found.toList ++ ring).Nodup
  first : (found.toList ++ ring).head? = some start
  /-- Nothing is found that does not belong to the region. -/
  joined : ∀ c ∈ found.toList ++ ring, g.Joined start c
  /-- A finished ring has passed on the flood to all around it. -/
  closed : ∀ c ∈ found.toList, ∀ d, g.Touches c d → d ∈ found.toList ++ ring
  get?_eq : ∀ c, m.get? c = if c ∈ found.toList ++ ring then some (some id) else m₀.get? c

section Flood

variable {g : Grid} {color : Color} {id : Nat} {start : Codel} {m₀ m : Membership}
  {ring : List Codel} {found : Array Codel}

/-- A flood ends when no ring is open. -/
theorem flood_nil (m : Membership) (found : Array Codel) :
    flood g color id [] m found = (found, m) := by
  rw [flood, if_pos rfl]

/-- Else it goes on with the next ring. -/
theorem flood_of_ne_nil (h : ring ≠ []) (m : Membership) (found : Array Codel) :
    flood g color id ring m found
      = flood g color id (nextRing g color id ring m).2.reverse (nextRing g color id ring m).1
          (found ++ ring) := by
  rw [flood, if_neg h]

/-- A flood starts with a ring of one codel. -/
theorem flooded_start (id : Nat) (hfree : m₀.IsFree start) :
    Flooded g id start m₀ [start] (m₀.assign start id) #[] where
  nodup := List.nodup_singleton start
  first := rfl
  joined c hc := by
    rw [List.mem_singleton.mp hc]
    exact Grid.Joined.refl g start
  closed c hc := absurd hc List.not_mem_nil
  get?_eq c := by
    rw [Membership.get?_assign hfree]
    simp

/-- One ring further. The region of the start has to be free before the
flood, so that no codel of it is taken for one of another block. -/
theorem Flooded.next (h : Flooded g id start m₀ ring m found)
    (hcolor : g.get? start = some color) (hfree : ∀ c, g.Joined start c → m₀.IsFree c) :
    Flooded g id start m₀ (nextRing g color id ring m).2.reverse (nextRing g color id ring m).1
      (found ++ ring) := by
  have hring := offered_nextRing g color id ring m
  generalize nextRing g color id ring m = s at hring
  -- A codel that the new ring has taken was not found before.
  have hfresh : ∀ c ∈ s.2, c ∉ found.toList ++ ring := by
    intro c hc hold
    have hget := ((hring.mem_iff c).mp hc).2.1
    rw [Membership.IsFree, h.get?_eq, if_pos hold] at hget
    exact absurd hget (by simp)
  refine ⟨?_, ?_, ?_, ?_, ?_⟩
  · rw [Array.toList_appendList, List.nodup_append]
    refine ⟨h.nodup, List.nodup_reverse.mpr hring.nodup, ?_⟩
    rintro c hc d hd rfl
    exact hfresh c (List.mem_reverse.mp hd) hc
  · rw [Array.toList_appendList, List.head?_append, h.first]
    rfl
  · intro c hc
    rw [Array.toList_appendList, List.mem_append, List.mem_reverse] at hc
    rcases hc with hc | hc
    · exact h.joined c hc
    · -- A new codel lies beside one of the ring, and has its color.
      obtain ⟨hbeside, -, hc⟩ := (hring.mem_iff c).mp hc
      obtain ⟨b, hb, hbeside⟩ := List.mem_flatMap.mp hbeside
      have hstart := h.joined b (List.mem_append_right _ hb)
      have hbcolor : g.get? b = some color := hstart.get?_eq ▸ hcolor
      have htouch : g.Touches b c :=
        ⟨(Raster.mem_neighbours_iff.mp hbeside).1, color, hbcolor, hc⟩
      exact hstart.trans htouch.joined
  · intro c hc d htouch
    rw [Array.toList_appendList, List.mem_append] at hc
    rw [Array.toList_appendList, List.mem_append, List.mem_reverse]
    rcases hc with hc | hc
    · exact Or.inl (h.closed c hc d htouch)
    · by_cases hold : d ∈ found.toList ++ ring
      · exact Or.inl hold
      · right
        have hjoined := (h.joined c (List.mem_append_right _ hc)).trans htouch.joined
        have hd : g.get? d = some color := hjoined.get?_eq ▸ hcolor
        have hbeside : d ∈ g.neighbours c :=
          Raster.mem_neighbours_iff.mpr ⟨htouch.1, Raster.contains_of_get? hd⟩
        have hget : m.IsFree d := by
          rw [Membership.IsFree, h.get?_eq, if_neg hold]
          exact hfree d hjoined
        exact (hring.mem_iff d).mpr ⟨List.mem_flatMap.mpr ⟨c, hc, hbeside⟩, hget, hd⟩
  · intro c
    rw [hring.get?_eq, h.get?_eq, Array.toList_appendList]
    generalize found.toList ++ ring = old
    by_cases hc : c ∈ s.2 <;> by_cases hold : c ∈ old <;> simp [hc, hold]

/-- A flood runs until no ring is open. -/
theorem Flooded.flood (h : Flooded g id start m₀ ring m found)
    (hcolor : g.get? start = some color) (hfree : ∀ c, g.Joined start c → m₀.IsFree c) :
    Flooded g id start m₀ [] (flood g color id ring m found).2
      (flood g color id ring m found).1 := by
  fun_induction Piet.flood g color id ring m found with
  | case1 m found => exact h
  | case2 ring m found hring m' next hstep ih =>
    have hnext := h.next hcolor hfree
    rw [hstep] at hnext
    exact ih hnext

/-- What is found when no ring is open is the whole region of the
start: it is closed, and contains the start. -/
theorem Flooded.mem_iff (h : Flooded g id start m₀ [] m found) (c : Codel) :
    c ∈ found.toList ↔ g.Joined start c := by
  have hclosed := h.closed
  have hjoined := h.joined
  simp only [List.append_nil] at hclosed hjoined
  constructor
  · exact hjoined c
  · intro hc
    -- What is found contains the start and all that touches a codel in it.
    -- So does every path from the start.
    have hstart : start ∈ found.toList := by
      have hfirst := h.first
      rw [List.append_nil] at hfirst
      exact List.mem_of_head? hfirst
    exact hc.induct hstart fun a b ha htouch => hclosed a ha b htouch

end Flood

/-! ### The scan -/

/-- Block `i` is the region of `first`, its first codel, and `m` gives
it exactly the codels of that region. No codel of the region comes
before `first` in the scan. -/
structure Block.Grown (g : Grid) (m : Membership) (i : Nat) (b : Block) (first : Codel) :
    Prop where
  id_eq : b.id = i
  first_eq : b.codels[0]? = some first
  color_eq : g.get? first = some b.color
  color_ne : b.color ≠ .black
  nodup : b.codels.toList.Nodup
  mem_iff : ∀ c, c ∈ b.codels ↔ g.Joined first c
  get?_iff : ∀ c, m.get? c = some (some i) ↔ g.Joined first c
  least : ∀ c, g.Joined first c → g.index first ≤ g.index c

/-- The state of the scan after the codels `done`. -/
structure Scanned (g : Grid) (done : List Codel) (p : Partition) : Prop where
  inside : ∀ c, p.membership.get? c = none ↔ g.get? c = none
  grown : ∀ (i : Nat) (b : Block), p.blocks[i]? = some b →
    ∃ first ∈ done, b.Grown g p.membership i first
  owned : ∀ c i, p.membership.get? c = some (some i) → i < p.blocks.size
  /-- Every codel scanned so far has its block, unless it is black. -/
  covered : ∀ c ∈ done, g.Open c → ¬ p.membership.IsFree c
  ordered : ∀ (i j : Nat) (b b' : Block) (c c' : Codel), i < j → p.blocks[i]? = some b →
    p.blocks[j]? = some b' → b.codels[0]? = some c → b'.codels[0]? = some c' →
    g.index c < g.index c'

section Scan

variable {g : Grid} {done : List Codel} {p : Partition} {c : Codel}

/-- Nothing has been scanned at first, and there is no block. -/
theorem scanned_start (g : Grid) : Scanned g [] (Partition.start g) where
  inside c := by
    rw [Raster.get?_eq_none, Raster.get?_eq_none]
    rfl
  grown i b h := absurd h (by simp [Partition.start])
  owned c i h := absurd (Raster.eq_of_get?_replicate h) (by simp)
  covered c hc := absurd hc List.not_mem_nil
  ordered i j b b' c c' _ h := absurd h (by simp [Partition.start])

/-- What the scan does at one codel: nothing, if the codel has a block
already or can have none, and else it floods the region from there. -/
theorem Partition.extend_cases (g : Grid) (p : Partition) (c : Codel) :
    (extend g p c = p ∧ (g.Open c → ¬ p.membership.IsFree c)) ∨
    ∃ color found m, extend g p c = ⟨p.blocks.push ⟨p.blocks.size, color, found⟩, m⟩ ∧
      p.membership.IsFree c ∧ g.get? c = some color ∧ color ≠ .black ∧
      flood g color p.blocks.size [c] (p.membership.assign c p.blocks.size) #[] = (found, m) := by
  obtain ⟨blocks, membership⟩ := p
  by_cases hfree : membership.IsFree c
  · simp only [extend, if_pos hfree]
    split
    · rename_i hnone
      refine Or.inl ⟨rfl, ?_⟩
      rintro ⟨color, hcolor, -⟩
      exact absurd (hnone.symm.trans hcolor) (by simp)
    · rename_i hblack
      refine Or.inl ⟨rfl, ?_⟩
      rintro ⟨color, hcolor, hne⟩
      exact absurd (Option.some.inj (hblack.symm.trans hcolor)) (Ne.symm hne)
    · rename_i color hne hcolor
      exact Or.inr ⟨color, _, _, rfl, hfree, hcolor, hne, rfl⟩
  · exact Or.inl ⟨by simp only [extend, if_neg hfree], fun _ => hfree⟩

/-- From a free codel that is not black, the scan grows a block. -/
theorem Partition.extend_of_free {color : Color} (hfree : p.membership.IsFree c)
    (hcolor : g.get? c = some color) (hne : color ≠ .black) :
    extend g p c =
      let grown := flood g color p.blocks.size [c] (p.membership.assign c p.blocks.size) #[]
      ⟨p.blocks.push ⟨p.blocks.size, color, grown.1⟩, grown.2⟩ := by
  rcases extend_cases g p c with ⟨-, hopen⟩ | ⟨color', found, m, heq, -, hcolor', -, hflood⟩
  · exact absurd hfree (hopen ⟨color, hcolor, hne⟩)
  · cases Option.some.inj (hcolor.symm.trans hcolor')
    rw [heq, hflood]

/-- At any other codel it does nothing. -/
theorem Partition.extend_of_not_free (h : g.Open c → ¬ p.membership.IsFree c) :
    extend g p c = p := by
  rcases extend_cases g p c with ⟨heq, -⟩ | ⟨color, _, _, -, hfree, hcolor, hne, -⟩
  · exact heq
  · exact absurd hfree (h ⟨color, hcolor, hne⟩)

/-- If a codel is free, so is its region: blocks are whole regions. -/
theorem Scanned.region_free (h : Scanned g done p) (hc : p.membership.IsFree c) {d : Codel}
    (hd : g.Joined c d) : p.membership.IsFree d := by
  -- Along a path from `c` each codel is free: a block that owned one
  -- would be its whole region, the codel before it included.
  refine hd.induct hc ?_
  intro a b ha htouch
  cases hb : p.membership.get? b with
  | none =>
    obtain ⟨-, color, -, hcolor⟩ := htouch
    exact absurd (((h.inside b).mp hb).symm.trans hcolor) (by simp)
  | some owner =>
    cases owner with
    | none => exact hb
    | some i =>
      obtain ⟨first, -, hgrown⟩ := h.grown i _ (Array.getElem?_eq_getElem (h.owned b i hb))
      have hjoined := ((hgrown.get?_iff b).mp hb).trans htouch.symm.joined
      rw [Membership.IsFree, (hgrown.get?_iff a).mpr hjoined] at ha
      exact absurd ha (by simp)

/-- A block that was there before a flood is not touched by it. -/
theorem Block.Grown.of_get?_eq {m m' : Membership} {i id : Nat} {b : Block} {first : Codel}
    {found : List Codel} (h : b.Grown g m i first) (hi : i < id)
    (hfree : ∀ d ∈ found, m.IsFree d)
    (hget : ∀ d, m'.get? d = if d ∈ found then some (some id) else m.get? d) :
    b.Grown g m' i first := by
  refine { h with get?_iff := ?_ }
  intro d
  rw [hget]
  split
  · rename_i hd
    have hnot : ¬ g.Joined first d := by
      rw [← h.get?_iff, hfree d hd]
      simp
    constructor
    · intro heq
      have : id = i := by simpa using heq
      omega
    · intro hd
      exact absurd hd hnot
  · exact h.get?_iff d

/-- The flood from a free codel grows a whole block. Nothing of the
block comes before `c` in the scan, for what comes before `c` is not
free any more. -/
theorem Scanned.grown_flood (h : Scanned g done p) {color : Color} {found : Array Codel}
    {m : Membership} (hdry : Flooded g p.blocks.size c p.membership [] m found)
    (hcolor : g.get? c = some color) (hne : color ≠ .black)
    (hregion : ∀ d, g.Joined c d → p.membership.IsFree d)
    (hdone : ∀ d, g.Contains d → g.index d < g.index c → d ∈ done) :
    Block.Grown g m p.blocks.size ⟨p.blocks.size, color, found⟩ c := by
  refine ⟨rfl, ?_, hcolor, hne, by simpa using hdry.nodup, ?_, ?_, ?_⟩
  · have hhead := hdry.first
    rwa [List.append_nil, List.head?_eq_getElem?, Array.getElem?_toList] at hhead
  · intro d
    rw [← Array.mem_toList_iff]
    exact hdry.mem_iff d
  · intro d
    rw [hdry.get?_eq, List.append_nil, ← hdry.mem_iff]
    split
    · rename_i hd
      simp [hd]
    · rename_i hd
      simp only [hd, iff_false]
      intro howned
      exact absurd (h.owned d _ howned) (Nat.lt_irrefl _)
  · intro d hd
    by_contra hlt
    have hmem := hdone d (Raster.contains_of_get? (hd.get?_eq ▸ hcolor)) (by omega)
    exact h.covered d hmem (hd.open ⟨color, hcolor, hne⟩) (hregion d hd)

/-- The scan after a new block. -/
theorem Scanned.push (h : Scanned g done p) {b : Block} {m : Membership}
    (hgrown : b.Grown g m p.blocks.size c) (hbefore : ∀ d ∈ done, g.index d < g.index c)
    (hfree : ∀ d ∈ b.codels.toList, p.membership.IsFree d)
    (hget : ∀ d, m.get? d
      = if d ∈ b.codels.toList then some (some p.blocks.size) else p.membership.get? d) :
    Scanned g (done ++ [c]) ⟨p.blocks.push b, m⟩ := by
  refine ⟨?_, ?_, ?_, ?_, ?_⟩
  · intro d
    rw [← h.inside, hget]
    split
    · rename_i hd
      rw [hfree d hd]
      simp
    · exact Iff.rfl
  · intro i b' hb'
    simp only [Array.getElem?_push] at hb'
    split at hb'
    · rename_i hi
      cases hb'
      exact ⟨c, by simp, hi ▸ hgrown⟩
    · obtain ⟨first, hfirst, hold⟩ := h.grown i b' hb'
      have hi : i < p.blocks.size := (Array.getElem?_eq_some_iff.mp hb').1
      exact ⟨first, List.mem_append_left _ hfirst, hold.of_get?_eq hi hfree hget⟩
  · intro d i hd
    show i < (p.blocks.push b).size
    rw [Array.size_push]
    have hd : m.get? d = some (some i) := hd
    rw [hget] at hd
    split at hd
    · have : p.blocks.size = i := by simpa using hd
      omega
    · have := h.owned d i hd
      omega
  · intro d hd hopen hstill
    have hstill : m.get? d = some none := hstill
    rw [hget] at hstill
    split at hstill
    · exact absurd hstill (by simp)
    · rename_i hnot
      rcases List.mem_append.mp hd with hd | hd
      · exact h.covered d hd hopen hstill
      · rw [List.mem_singleton.mp hd, Array.mem_toList_iff, hgrown.mem_iff] at hnot
        exact hnot (Grid.Joined.refl g c)
  · intro i j b₁ b₂ c₁ c₂ hij hb₁ hb₂ hc₁ hc₂
    have hi : i < p.blocks.size := by
      have := (Array.getElem?_eq_some_iff.mp hb₂).1
      simp only [Array.size_push] at this
      omega
    have hb₁ : p.blocks[i]? = some b₁ := by
      simpa [Array.getElem?_push, show i ≠ p.blocks.size by omega] using hb₁
    simp only [Array.getElem?_push] at hb₂
    split at hb₂
    · -- The new block starts at `c`, and all blocks before it start at codels scanned before.
      cases hb₂
      obtain ⟨first, hfirst, hold⟩ := h.grown i b₁ hb₁
      rw [hold.first_eq] at hc₁
      rw [hgrown.first_eq] at hc₂
      cases hc₁
      cases hc₂
      exact hbefore _ hfirst
    · exact h.ordered i j b₁ b₂ c₁ c₂ hij hb₁ hb₂ hc₁ hc₂

/-- One codel further. The codels `done` are those before `c` in scan
order. -/
theorem Scanned.extend (h : Scanned g done p) (hbefore : ∀ d ∈ done, g.index d < g.index c)
    (hdone : ∀ d, g.Contains d → g.index d < g.index c → d ∈ done) :
    Scanned g (done ++ [c]) (Partition.extend g p c) := by
  rcases Partition.extend_cases g p c with
    ⟨heq, hopen⟩ | ⟨color, found, m, heq, hfree, hcolor, hne, hflood⟩
  · rw [heq]
    refine { h with grown := ?_, covered := ?_ }
    · intro i b hb
      obtain ⟨first, hfirst, hgrown⟩ := h.grown i b hb
      exact ⟨first, List.mem_append_left _ hfirst, hgrown⟩
    · intro d hd
      rcases List.mem_append.mp hd with hd | hd
      · exact h.covered d hd
      · rw [List.mem_singleton.mp hd]
        exact hopen
  · have hregion : ∀ d, g.Joined c d → p.membership.IsFree d := fun d => h.region_free hfree
    -- The flood has run dry, so that `found` is the whole region.
    have hdry : Flooded g p.blocks.size c p.membership [] m found := by
      have hflooded := (flooded_start p.blocks.size hfree).flood hcolor hregion
      rwa [hflood] at hflooded
    rw [heq]
    refine h.push (h.grown_flood hdry hcolor hne hregion hdone) hbefore ?_ ?_
    · intro d hd
      exact hregion d ((hdry.mem_iff d).mp hd)
    · simpa using hdry.get?_eq

/-- The whole scan. -/
theorem scanned_ofGrid (g : Grid) : Scanned g g.codels (Partition.ofGrid g) := by
  have hsorted := g.pairwise_codels
  -- The induction is on what is left of the scan. `done` has to be kept
  -- free, for the step needs to know all that came before.
  suffices hrun : ∀ (rest done : List Codel) (p : Partition), done ++ rest = g.codels →
      Scanned g done p → Scanned g g.codels (rest.foldl (Partition.extend g) p) from
    hrun g.codels [] (Partition.start g) rfl (scanned_start g)
  intro rest
  induction rest with
  | nil =>
    intro done p hall h
    rw [List.append_nil] at hall
    rw [← hall]
    exact h
  | cons c rest ih =>
    intro done p hall h
    rw [← hall, List.pairwise_append] at hsorted
    obtain ⟨-, hrest, hcross⟩ := hsorted
    refine ih (done ++ [c]) _ (by simpa using hall) (h.extend ?_ ?_)
    · intro d hd
      exact hcross d hd c List.mem_cons_self
    · intro d hd hlt
      -- Whatever the scan has not met yet comes no earlier than `c`.
      have hmem := Raster.mem_codels_iff.mpr hd
      rw [← hall, List.mem_append, List.mem_cons] at hmem
      rcases hmem with hmem | rfl | hmem
      · exact hmem
      · exact absurd hlt (Nat.lt_irrefl _)
      · have := List.rel_of_pairwise_cons hrest hmem
        omega

end Scan

/-! ### The finished partition -/

/-- The block consists of the codels joined to `c`, each once. -/
structure Block.IsRegion (g : Grid) (c : Codel) (b : Block) : Prop where
  color_eq : g.get? c = some b.color
  nodup : b.codels.toList.Nodup
  mem_iff : ∀ d, d ∈ b.codels ↔ d ∈ g.region c

namespace Partition

variable {g : Grid} {c : Codel} {i : Nat}

/-- The block of a codel is its region. -/
theorem exists_block_of_blockAt? (h : (ofGrid g).membership.blockAt? c = some i) :
    ∃ b, (ofGrid g).blocks[i]? = some b ∧ b.IsRegion g c := by
  rw [Membership.blockAt?_eq_some_iff] at h
  have hscan := scanned_ofGrid g
  have hb := Array.getElem?_eq_getElem (hscan.owned c i h)
  obtain ⟨first, -, hgrown⟩ := hscan.grown i _ hb
  have hc : g.Joined first c := (hgrown.get?_iff c).mp h
  refine ⟨_, hb, hc.get?_eq ▸ hgrown.color_eq, hgrown.nodup, ?_⟩
  intro d
  rw [← Grid.region_eq_of_joined hc]
  exact hgrown.mem_iff d

/-- Outside the grid and on black there is no block, and everywhere
else there is one. -/
theorem blockAt?_eq_none_iff :
    (ofGrid g).membership.blockAt? c = none ↔ g.get? c = none ∨ g.get? c = some .black := by
  have hscan := scanned_ofGrid g
  rw [Membership.blockAt?_eq_none_iff, hscan.inside]
  constructor
  · rintro (hout | hfree)
    · exact Or.inl hout
    · cases hcolor : g.get? c with
      | none => exact Or.inl rfl
      | some color =>
        by_cases hblack : color = .black
        · exact Or.inr (by rw [hblack])
        · have hmem := Raster.mem_codels_iff.mpr (Raster.contains_of_get? hcolor)
          exact absurd hfree (hscan.covered c hmem ⟨color, hcolor, hblack⟩)
  · rintro (hout | hblack)
    · exact Or.inl hout
    · right
      cases howner : (ofGrid g).membership.get? c with
      | none => exact absurd (((hscan.inside c).mp howner).symm.trans hblack) (by simp)
      | some owner =>
        cases owner with
        | none => exact howner
        | some i =>
          -- A block has a color of its own, and it is not black.
          obtain ⟨first, -, hgrown⟩ :=
            hscan.grown i _ (Array.getElem?_eq_getElem (hscan.owned c i howner))
          have hcolor := ((hgrown.get?_iff c).mp howner).get?_eq ▸ hgrown.color_eq
          exact absurd (Option.some.inj (hcolor.symm.trans hblack)) hgrown.color_ne

/-- The codels that have a block are those that can be entered. -/
theorem exists_blockAt?_iff :
    (∃ i, (ofGrid g).membership.blockAt? c = some i) ↔ g.Open c := by
  rw [← Option.isSome_iff_exists, ← not_iff_not, Option.not_isSome_iff_eq_none,
    blockAt?_eq_none_iff, Grid.Open]
  cases hcolor : g.get? c with
  | none => simp
  | some color => simp

/-- Two codels have one block if and only if they are joined. -/
theorem blockAt?_eq_iff {d : Codel} (hc : g.Open c) :
    (ofGrid g).membership.blockAt? c = (ofGrid g).membership.blockAt? d ↔ g.Joined c d := by
  have hscan := scanned_ofGrid g
  obtain ⟨i, hi⟩ := exists_blockAt?_iff.mpr hc
  rw [hi, eq_comm, Membership.blockAt?_eq_some_iff]
  rw [Membership.blockAt?_eq_some_iff] at hi
  obtain ⟨first, -, hgrown⟩ := hscan.grown i _ (Array.getElem?_eq_getElem (hscan.owned c i hi))
  rw [hgrown.get?_iff] at hi ⊢
  exact ⟨fun hd => hi.symm.trans hd, fun hd => hi.trans hd⟩

/-- The blocks and the membership are those of the regions of a grid
that are not black, numbered in scan order. -/
structure IsSegmentation (g : Grid) (p : Partition) : Prop where
  /-- Two codels that are not black have one block if and only if a
  path of codels of one color leads from one to the other. -/
  blockAt?_eq_iff : ∀ c d, g.Open c → g.Open d →
    (p.membership.blockAt? c = p.membership.blockAt? d ↔ g.Joined c d)
  /-- Exactly the black codels and those outside have no block. -/
  blockAt?_eq_none_iff : ∀ c,
    p.membership.blockAt? c = none ↔ g.get? c = none ∨ g.get? c = some .black
  /-- Membership names blocks that there are. -/
  lt_size : ∀ c i, p.membership.blockAt? c = some i → i < p.blocks.size
  /-- A block's number is its place. -/
  id_eq : ∀ (i : Nat) (b : Block), p.blocks[i]? = some b → b.id = i
  nodup : ∀ (i : Nat) (b : Block), p.blocks[i]? = some b → b.codels.toList.Nodup
  mem_iff : ∀ (i : Nat) (b : Block), p.blocks[i]? = some b →
    ∀ c, c ∈ b.codels ↔ p.membership.blockAt? c = some i
  color_eq : ∀ (i : Nat) (b : Block), p.blocks[i]? = some b →
    ∀ c ∈ b.codels, g.get? c = some b.color
  /-- A block lists the first of its codels in scan order first. -/
  first_le : ∀ (i : Nat) (b : Block), p.blocks[i]? = some b →
    ∃ first, b.codels[0]? = some first ∧ ∀ c ∈ b.codels, g.index first ≤ g.index c
  /-- Blocks are numbered by their first codels in scan order. -/
  first_lt : ∀ (i j : Nat) (b b' : Block) (c c' : Codel), i < j →
    p.blocks[i]? = some b → p.blocks[j]? = some b' →
    b.codels[0]? = some c → b'.codels[0]? = some c' → g.index c < g.index c'

/-- Cutting a grid into blocks finds exactly the regions of the codels
that are not black, and numbers them in scan order. -/
theorem ofGrid_isSegmentation (g : Grid) : IsSegmentation g (ofGrid g) := by
  have hscan := scanned_ofGrid g
  refine ⟨fun c d hc _ => blockAt?_eq_iff hc, fun c => blockAt?_eq_none_iff, ?_, ?_, ?_, ?_, ?_,
    ?_, hscan.ordered⟩
  · intro c i hi
    exact hscan.owned c i (Membership.blockAt?_eq_some_iff.mp hi)
  · intro i b hb
    obtain ⟨first, -, hgrown⟩ := hscan.grown i b hb
    exact hgrown.id_eq
  · intro i b hb
    obtain ⟨first, -, hgrown⟩ := hscan.grown i b hb
    exact hgrown.nodup
  · intro i b hb c
    obtain ⟨first, -, hgrown⟩ := hscan.grown i b hb
    rw [Membership.blockAt?_eq_some_iff, hgrown.mem_iff, hgrown.get?_iff]
  · intro i b hb c hc
    obtain ⟨first, -, hgrown⟩ := hscan.grown i b hb
    exact ((hgrown.mem_iff c).mp hc).get?_eq ▸ hgrown.color_eq
  · intro i b hb
    obtain ⟨first, -, hgrown⟩ := hscan.grown i b hb
    exact ⟨first, hgrown.first_eq, fun c hc => hgrown.least c ((hgrown.mem_iff c).mp hc)⟩

end Partition

end EsoHost.Piet
