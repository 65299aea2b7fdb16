import EsoHost.Piet.Block

/-!
# `EsoHost.Piet.Exit`: the ways out of a block

The pointer leaves a block through one codel, chosen by its heading:
the direction picks the edge of the block that lies furthest that way,
and the chooser picks the end of the edge on its side
(`exitCodel?`). If the codel beyond lies inside the grid and is not
black, this is a `Transition`; the eight of a block form its
`ExitTable`.
-/

set_option autoImplicit false

namespace EsoHost.Piet

/-! ### Exit codels -/

/-- How far a codel lies towards `d`: the larger, the further.
Coordinates are 64-bit words here, and distances are signed. -/
def Codel.reach (c : Codel) (d : Direction) : Int64 :=
  Int64.ofNat c.x * Int64.ofInt d.offset.1 + Int64.ofNat c.y * Int64.ofInt d.offset.2

/-- The codels that lie furthest towards `d`. -/
def edge (codels : List Codel) (d : Direction) : List Codel :=
  match codels.maxOn? (fun c => c.reach d) with
  | some top => codels.filter fun c => c.reach d = top.reach d
  | none => []

/-- The codel through which a region is left under heading `h`. -/
def exitCodel? (codels : List Codel) (h : Heading) : Option Codel :=
  (edge codels h.dp).maxOn? fun c => c.reach h.side

/-! ### Transitions -/

/-- A way out of a block: leave through `exit`, and land on `entry`,
which belongs to block `target`. -/
structure Transition where
  exit : Codel
  target : Nat
  entry : Codel
  deriving DecidableEq, Repr

/-- One entry for each heading, in the order of `Heading.all`. An
absent entry is blocked by the border of the grid or by black. -/
structure ExitTable where
  entries : Vector (Option Transition) 8
  deriving DecidableEq, Repr

namespace ExitTable

/-- The table of a function on headings. -/
def ofFn (f : Heading → Option Transition) : ExitTable where
  entries := ⟨(Heading.all.map f).toArray, rfl⟩

/-- The entry for a heading. -/
def get (t : ExitTable) (h : Heading) : Option Transition :=
  have := h.index_lt
  t.entries[h.index]

/-- A table made from a function answers as the function does. -/
@[simp]
theorem get_ofFn (f : Heading → Option Transition) (h : Heading) : (ofFn f).get h = f h := by
  obtain ⟨dp, cc⟩ := h
  cases dp <;> cases cc <;> rfl

/-- The number of entries that are not blocked. -/
def live (t : ExitTable) : Nat := t.entries.toList.countP Option.isSome

end ExitTable

/-- The transition out of a block under heading `h`, if it is not
blocked. -/
def transition? (g : Grid) (m : Membership) (b : Block) (h : Heading) : Option Transition := do
  let exit ← exitCodel? b.codels.toList h
  let entry ← g.step exit h.dp
  let color ← g.get? entry
  if color = .black then none
  else
    let target ← m.blockAt? entry
    return { exit, target, entry }

/-- The exits of a block. White is crossed codel by codel, so a white
block has none. -/
def exitTable (g : Grid) (m : Membership) (b : Block) : ExitTable :=
  if b.color = .white then .ofFn fun _ => none else .ofFn (transition? g m b)

end EsoHost.Piet
