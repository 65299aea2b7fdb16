import EsoHost.Piet.Exit
import EsoHost.Piet.SourceText

/-!
# `EsoHost.Piet.Program`: compiled grids

A grid together with all that a machine asks of it: its blocks, the
block of each codel, and the exits of each block.
-/

set_option autoImplicit false

namespace EsoHost.Piet

/-- A grid ready to be run. -/
structure Program where
  grid : Grid
  blocks : Array Block
  membership : Membership
  /-- The exits of each block, in the order of `blocks`. -/
  exits : Array ExitTable

namespace Program

/-- Puts a program together from a grid, blocks and a membership, and
works out the exits. -/
def assemble (grid : Grid) (blocks : Array Block) (membership : Membership) : Program where
  grid := grid
  blocks := blocks
  membership := membership
  exits := blocks.map (exitTable grid membership)

/-- The program of a grid. -/
def compile (grid : Grid) : Program :=
  let partition := Partition.ofGrid grid
  assemble grid partition.blocks partition.membership

/-- The program of a grid given as text. -/
def ofSource (unknown : UnknownColors) (text : String) : Except SourceError Program := do
  let rows ← readRows unknown text
  let grid ← (Grid.ofRows rows).mapError .grid
  return compile grid

/-- The number of the block to which a codel belongs. -/
def blockAt? (p : Program) (c : Codel) : Option Nat := p.membership.blockAt? c

/-- The transition out of block `id` under heading `h`. -/
def transition? (p : Program) (id : Nat) (h : Heading) : Option Transition := do
  let table ← p.exits[id]?
  table.get h

/-- How many ways lead out of blocks, all headings counted. -/
def liveTransitions (p : Program) : Nat := p.exits.foldl (fun n table => n + table.live) 0

end Program

end EsoHost.Piet
