import EsoHost.Piet.Grid

/-!
# `EsoHost.Piet.Block`: cutting a grid into blocks

A block is a maximal region of codels of one color, joined side to
side. Black codels belong to no block. `Partition.ofGrid` scans the
grid and grows a block from every codel that has none yet, so blocks
are numbered by their first codel in scan order.

A block grows ring by ring (`flood`): the next ring holds the codels
next to the current one that have the block's color and are still
free. Every ring but an empty one uses up free codels, so growing
ends (`free_nextRing`).
-/

set_option autoImplicit false

namespace EsoHost.Piet

/-! ### Blocks and membership -/

/-- A region of codels of one color. -/
structure Block where
  /-- The place of the block among all blocks. -/
  id : Nat
  color : Color
  /-- The codels in the order in which the region was grown: by
  distance from the first, and within one distance in the order of
  the codels they were reached from. -/
  codels : Array Codel
  deriving Repr

/-- The number of codels of a block. -/
def Block.size (b : Block) : Nat := b.codels.size

/-- The written form of a block's number. -/
def Block.label (id : Nat) : String := s!"#{id}"

/-- For each codel, the number of its block, if it has one yet. -/
abbrev Membership := Raster (Option Nat)

namespace Membership

/-- The block of a codel. Codels outside the raster have none. -/
def blockAt? (m : Membership) (c : Codel) : Option Nat := (m.get? c).join

/-- The codel lies inside and belongs to no block yet. -/
def IsFree (m : Membership) (c : Codel) : Prop := m.get? c = some none

instance (m : Membership) (c : Codel) : Decidable (m.IsFree c) :=
  inferInstanceAs (Decidable (_ = _))

/-- Gives a codel to block `id`. -/
def assign (m : Membership) (c : Codel) (id : Nat) : Membership := m.set c (some id)

/-- How many codels belong to no block yet. -/
def free (m : Membership) : Nat := m.cells.count none

/-- Assigning a free codel leaves one free codel less. -/
theorem free_assign {m : Membership} {c : Codel} {id : Nat} (h : m.IsFree c) :
    (m.assign c id).free + 1 = m.free := by
  have hc : m.Contains c := by
    rw [← Raster.isSome_get?, h]
    rfl
  have hlt := Raster.index_lt hc
  have hcell : m.cells[m.index c] = none := by
    unfold IsFree Raster.get? at h
    rw [dif_pos hc] at h
    exact Option.some.inj h
  have hmem : none ∈ m.cells := hcell ▸ Array.getElem_mem hlt
  have hpos : 0 < m.cells.count none := Array.count_pos_iff.mpr hmem
  unfold free assign Raster.set
  rw [dif_pos hc]
  simp only [Array.count_set, hcell]
  simp
  omega

end Membership

/-! ### Growing one block -/

/-- A ring in the making: who owns which codel, and the codels of the
ring so far, the latest first. -/
abbrev Ring := Membership × List Codel

/-- Takes `c` into the ring of block `id` if it is free and has the
block's color. -/
def Ring.offer (g : Grid) (color : Color) (id : Nat) (s : Ring) (c : Codel) : Ring :=
  if s.1.IsFree c ∧ g.get? c = some color then (s.1.assign c id, c :: s.2) else s

/-- The ring around `ring`: its codels' neighbours, offered one codel
after the other. -/
def nextRing (g : Grid) (color : Color) (id : Nat) (ring : List Codel) (m : Membership) : Ring :=
  (ring.flatMap g.neighbours).foldl (Ring.offer g color id) (m, [])

/-- An offer moves at most one codel from the free ones to the ring, so
the two together stay as many as they were. The search ends because of
this. -/
theorem free_offer (g : Grid) (color : Color) (id : Nat) (s : Ring) (c : Codel) :
    (s.offer g color id c).1.free + (s.offer g color id c).2.length
      = s.1.free + s.2.length := by
  unfold Ring.offer
  split
  · rename_i h
    have hassign : (s.1.assign c id).free + 1 = s.1.free := Membership.free_assign h.1
    simp only [List.length_cons]
    omega
  · rfl

/-- A ring takes as many codels as it holds from the free ones. -/
theorem free_nextRing (g : Grid) (color : Color) (id : Nat) (ring : List Codel)
    (m : Membership) :
    (nextRing g color id ring m).1.free + (nextRing g color id ring m).2.length = m.free := by
  have hfold : ∀ (cs : List Codel) (s : Ring),
      (cs.foldl (Ring.offer g color id) s).1.free
        + (cs.foldl (Ring.offer g color id) s).2.length = s.1.free + s.2.length := by
    intro cs
    induction cs with
    | nil => intro s; rfl
    | cons c cs ih =>
      intro s
      rw [List.foldl_cons, ih, free_offer]
  exact hfold _ (m, [])

/-- Grows block `id` from `ring` on, ring by ring, until a ring stays
empty. Returns all codels found and the new membership; `found` are
the codels of the rings before. -/
def flood (g : Grid) (color : Color) (id : Nat) (ring : List Codel) (m : Membership)
    (found : Array Codel) : Array Codel × Membership :=
  if ring = [] then
    (found, m)
  else
    match _hstep : nextRing g color id ring m with
    | (m', next) => flood g color id next.reverse m' (found ++ ring)
termination_by (m.free, ring.length)
decreasing_by
  rename_i hring
  have hfree := free_nextRing g color id ring m
  have hlen : 0 < ring.length := List.length_pos_iff.mpr hring
  rw [_hstep] at hfree
  rw [List.length_reverse]
  -- An empty ring leaves all free codels free, and is shorter than this
  -- one, which is not empty. Any other takes some of them.
  by_cases hnext : next.length = 0
  · rw [hnext, Nat.add_zero] at hfree
    rw [hfree, hnext]
    exact Prod.Lex.right _ hlen
  · exact Prod.Lex.left _ _ (by simp only at hfree; omega)

/-! ### The partition -/

/-- The blocks of a grid, and for each codel the number of its
block. -/
structure Partition where
  blocks : Array Block
  membership : Membership

namespace Partition

/-- No block yet. -/
def start (g : Grid) : Partition where
  blocks := #[]
  membership := Raster.replicate g.width g.height none

/-- Grows a new block from `c`, unless `c` is black or has a block
already. -/
def extend (g : Grid) : Partition → Codel → Partition
  | ⟨blocks, membership⟩, c =>
    if membership.IsFree c then
      match g.get? c with
      | none | some .black => ⟨blocks, membership⟩
      | some color =>
        let grown := flood g color blocks.size [c] (membership.assign c blocks.size) #[]
        ⟨blocks.push ⟨blocks.size, color, grown.1⟩, grown.2⟩
    else
      ⟨blocks, membership⟩

/-- The partition of a grid, block by block in scan order. -/
def ofGrid (g : Grid) : Partition := g.codels.foldl (extend g) (start g)

end Partition

end EsoHost.Piet
