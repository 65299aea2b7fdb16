import EsoHost.Proofs.Piet.Lockstep

/-!
# `EsoHost.Proofs.Piet.Border`: the border is like black

Black columns to the right of a grid and black rows below it change
nothing (`border_is_black`): where the grid ended, a codel is now black,
and the flood, the exits and the slides treat the two alike.

The two grids differ in width, so a codel has another index in each,
and a scan of the larger one meets codels that the smaller one does not
have. The comparison therefore never mentions an index. It rests on two
facts, `Grid.IsPadding.get?_eq_some_iff` about colors and
`Grid.IsPadding.filter_codels` about scan order: every codel that is
not black is in both grids, and they come in the same order.

* `Membership.Alongside` is what two memberships share while their
  grids are cut into blocks. `flood_padding` carries it through one
  block, and `Partition.alongside_ofGrid` through the scan.
* `Grid.IsPadding.alike` puts the programs together.
-/

set_option autoImplicit false

namespace EsoHost.Piet

/-! ### Padded grids -/

/-- The grid with black columns added to the right and black rows added
below. -/
def Grid.pad (g : Grid) (columns rows : Nat) : Grid where
  width := g.width + columns
  height := g.height + rows
  cells := Array.ofFn fun i : Fin ((g.width + columns) * (g.height + rows)) =>
    (g.get? ⟨i % (g.width + columns), i / (g.width + columns)⟩).getD .black
  size_cells := Array.size_ofFn
  width_pos := Nat.add_pos_left g.width_pos columns
  height_pos := Nat.add_pos_left g.height_pos rows

/-- A codel of the padded grid has the color it had before, if it had
one, and else is black. -/
theorem Grid.get?_pad {g : Grid} {columns rows : Nat} {c : Codel}
    (h : (g.pad columns rows).Contains c) :
    (g.pad columns rows).get? c = some ((g.get? c).getD .black) := by
  obtain ⟨x, y⟩ := c
  have hx : x < g.width + columns := h.1
  have hpos : 0 < g.width + columns := Nat.zero_lt_of_lt hx
  -- The index of a codel gives back its column and its row.
  have hcolumn : (y * (g.width + columns) + x) % (g.width + columns) = x := by
    rw [Nat.mul_add_mod_self_right, Nat.mod_eq_of_lt hx]
  have hrow : (y * (g.width + columns) + x) / (g.width + columns) = y := by
    rw [Nat.mul_comm, Nat.mul_add_div hpos, Nat.div_eq_of_lt hx, Nat.add_zero]
  rw [Raster.get?, dif_pos h]
  simp only [pad, Raster.index, Array.getElem_ofFn, hcolumn, hrow]

/-- The second grid is the first one with black codels added to the
right of it and below it. -/
structure Grid.IsPadding (g g' : Grid) : Prop where
  width_le : g.width ≤ g'.width
  height_le : g.height ≤ g'.height
  get?_eq : ∀ c, g.Contains c → g'.get? c = g.get? c
  black : ∀ c color, ¬ g.Contains c → g'.get? c = some color → color = .black

/-- Adding columns and rows pads a grid. -/
theorem Grid.isPadding_pad (g : Grid) (columns rows : Nat) :
    g.IsPadding (g.pad columns rows) := by
  have hwidth : g.width ≤ (g.pad columns rows).width := Nat.le_add_right _ _
  have hheight : g.height ≤ (g.pad columns rows).height := Nat.le_add_right _ _
  refine ⟨hwidth, hheight, ?_, ?_⟩
  · intro c hin
    obtain ⟨color, hcolor⟩ := Option.isSome_iff_exists.mp (Raster.isSome_get?.mpr hin)
    rw [get?_pad ⟨Nat.lt_of_lt_of_le hin.1 hwidth, Nat.lt_of_lt_of_le hin.2 hheight⟩, hcolor]
    rfl
  · intro c color hout hcolor
    rw [get?_pad (Raster.contains_of_get? hcolor), Raster.get?_eq_none.mpr hout] at hcolor
    exact (Option.some.inj hcolor).symm

namespace Grid.IsPadding

variable {g g' : Grid} (h : g.IsPadding g') {c : Codel} {color : Color}

include h

/-- The padded grid has all codels of the grid. -/
theorem contains (hc : g.Contains c) : g'.Contains c :=
  ⟨Nat.lt_of_lt_of_le hc.1 h.width_le, Nat.lt_of_lt_of_le hc.2 h.height_le⟩

/-- Padding adds and takes away no color but black. -/
theorem get?_eq_some_iff (hne : color ≠ .black) :
    g'.get? c = some color ↔ g.get? c = some color := by
  by_cases hin : g.Contains c
  · rw [h.get?_eq c hin]
  · constructor
    · intro hcolor
      exact absurd (h.black c color hin hcolor) hne
    · intro hcolor
      exact absurd (Raster.contains_of_get? hcolor) hin

/-- A codel that was added is as closed to the pointer as one that is
not there. -/
theorem open_iff : g'.Open c ↔ g.Open c :=
  exists_congr fun _ => and_congr_left fun hne => h.get?_eq_some_iff hne

/-- No white codel is added or taken away. -/
theorem isWhite_iff : g'.IsWhite c ↔ g.IsWhite c := h.get?_eq_some_iff (by simp)

/-- And no colored one. -/
theorem isColored_iff : g'.IsColored c ↔ g.IsColored c :=
  exists_congr fun _ => exists_congr fun _ => h.get?_eq_some_iff (by simp)

/-- The scan of the larger grid meets the codels of the smaller one in
the same order. -/
theorem filter_codels : g'.codels.filter (fun c => g.Contains c) = g.codels := by
  have hrange : ∀ {m n : Nat}, m ≤ n → (List.range n).filter (fun x => x < m) = List.range m := by
    intro m n hmn
    obtain ⟨k, rfl⟩ := Nat.exists_eq_add_of_le hmn
    rw [List.range_add, List.filter_append, List.filter_eq_self.mpr, List.filter_eq_nil_iff.mpr,
      List.append_nil]
    · simp
    · simp
  have hrow : ∀ y, ((List.range g'.width).map fun x => (⟨x, y⟩ : Codel)).filter
      (fun c => g.Contains c)
        = if y < g.height then (List.range g.width).map fun x => ⟨x, y⟩ else [] := by
    intro y
    rw [List.filter_map]
    split
    · rename_i hy
      rw [← hrange h.width_le]
      congr 2
      funext x
      simp [Raster.Contains, hy]
    · rename_i hy
      rw [List.map_eq_nil_iff, List.filter_eq_nil_iff]
      intro x _
      simp [Raster.Contains, hy]
  -- Of the rows, those of the smaller grid are left, each cut to its
  -- width, and no other has a codel left.
  show ((List.range g'.height).flatMap _).filter _ = (List.range g.height).flatMap _
  rw [List.filter_flatMap, ← hrange h.height_le]
  simp only [hrow]
  generalize List.range g'.height = ys
  induction ys with
  | nil => rfl
  | cons y ys ih =>
    rw [List.flatMap_cons, ih, List.filter_cons]
    by_cases hy : y < g.height
    · simp [hy]
    · simp [hy]

/-- A codel has the same neighbours in the smaller grid, less those that
lie outside. -/
theorem filter_neighbours : (g'.neighbours c).filter (fun d => g.Contains d) = g.neighbours c := by
  unfold Raster.neighbours
  rw [List.filter_filterMap]
  congr 1
  funext dir
  unfold Raster.step
  rw [Option.filter_filter]
  congr 1
  funext d
  by_cases hd : g.Contains d
  · simp [hd, h.contains hd]
  · simp [hd]

end Grid.IsPadding

/-! ### Cutting into blocks -/

/-- The second membership gives each codel of the grid to the same block
as the first. -/
def Membership.Alongside (g : Grid) (m m' : Membership) : Prop :=
  ∀ c, g.Contains c → m'.get? c = m.get? c

section Alongside

variable {g g' : Grid} {m m' : Membership} {c : Codel} {color : Color} {id : Nat}

/-- The same codels of the grid are free. -/
theorem Membership.Alongside.isFree_iff (h : m.Alongside g m') (hc : g.Contains c) :
    m'.IsFree c ↔ m.IsFree c := by
  rw [IsFree, IsFree, h c hc]

/-- They stay the same when a codel is given away in both. -/
theorem Membership.Alongside.assign (h : m.Alongside g m') (hfree : m.IsFree c)
    (hfree' : m'.IsFree c) (id : Nat) : (m.assign c id).Alongside g (m'.assign c id) := by
  intro d hd
  rw [get?_assign hfree, get?_assign hfree', h d hd]

/-- Two rings in the making that hold the same codels. -/
def Ring.Alongside (g : Grid) (s s' : Ring) : Prop := s.1.Alongside g s'.1 ∧ s'.2 = s.2

/-- A codel of the grid is offered to both rings. -/
theorem Ring.Alongside.offer (hpad : g.IsPadding g') {s s' : Ring} (h : s.Alongside g s')
    (hc : g.Contains c) : (s.offer g color id c).Alongside g (s'.offer g' color id c) := by
  simp only [Ring.offer, h.1.isFree_iff hc, hpad.get?_eq c hc]
  split
  · rename_i htaken
    exact ⟨h.1.assign htaken.1 ((h.1.isFree_iff hc).mpr htaken.1) id, congrArg (c :: ·) h.2⟩
  · exact h

/-- A codel outside the grid is not taken: it is black, if it has a
color at all. -/
theorem Ring.offer_of_not_contains (hpad : g.IsPadding g') (hne : color ≠ .black)
    (hc : ¬ g.Contains c) (s : Ring) : s.offer g' color id c = s := by
  unfold Ring.offer
  rw [if_neg]
  rintro ⟨-, hcolor⟩
  exact hne (hpad.black c color hc hcolor)

/-- The next ring has the same codels, in the same order. -/
theorem nextRing_padding (hpad : g.IsPadding g') (hne : color ≠ .black) (id : Nat)
    (ring : List Codel) (h : m.Alongside g m') :
    (nextRing g color id ring m).Alongside g (nextRing g' color id ring m') := by
  have hnext : ring.flatMap g.neighbours
      = (ring.flatMap g'.neighbours).filter fun d => g.Contains d := by
    rw [List.filter_flatMap]
    exact congrArg (ring.flatMap ·) (funext fun b => hpad.filter_neighbours.symm)
  unfold nextRing
  rw [hnext, List.foldl_filter]
  -- Both rings are offered the neighbours in the larger grid, and those
  -- outside the smaller one change neither of them.
  refine List.foldl_rel (r := Ring.Alongside g) ⟨h, rfl⟩ ?_
  intro d _ s s' hs
  by_cases hd : g.Contains d
  · simpa [hd] using hs.offer hpad hd
  · simpa [hd, Ring.offer_of_not_contains hpad hne hd] using hs

/-- The same codels are found, in the same order. -/
theorem flood_padding (hpad : g.IsPadding g') (hne : color ≠ .black) (id : Nat)
    (ring : List Codel) (found : Array Codel) (h : m.Alongside g m') :
    (flood g color id ring m found).2.Alongside g (flood g' color id ring m' found).2 ∧
      (flood g' color id ring m' found).1 = (flood g color id ring m found).1 := by
  fun_induction flood g color id ring m found generalizing m' with
  | case1 m found =>
    rw [flood_nil]
    exact ⟨h, rfl⟩
  | case2 ring m found hring m₁ next hstep ih =>
    have hnext := nextRing_padding hpad hne id ring h
    rw [hstep] at hnext
    rw [flood_of_ne_nil hring, hnext.2]
    exact ih hnext.1

/-- Two partitions with the same blocks. -/
def Partition.Alongside (g : Grid) (p p' : Partition) : Prop :=
  p.membership.Alongside g p'.membership ∧ p'.blocks = p.blocks

/-- One codel of the grid. -/
theorem Partition.Alongside.extend (hpad : g.IsPadding g') {p p' : Partition}
    (h : p.Alongside g p') (hc : g.Contains c) :
    (extend g p c).Alongside g (extend g' p' c) := by
  obtain ⟨hsame, hgrow⟩ | ⟨color, _, _, -, hfree, hcolor, hne, -⟩ := extend_cases g p c
  · rw [hsame, extend_of_not_free]
    · exact h
    · rwa [hpad.open_iff, h.1.isFree_iff hc]
  · -- Both scans start a block here, with the same number.
    have hfree' : p'.membership.IsFree c := (h.1.isFree_iff hc).mpr hfree
    rw [extend_of_free hfree hcolor hne,
      extend_of_free hfree' ((hpad.get?_eq_some_iff hne).mpr hcolor) hne, h.2]
    obtain ⟨hmembership, hfound⟩ := flood_padding hpad hne p.blocks.size [c] #[]
      (h.1.assign hfree hfree' p.blocks.size)
    refine ⟨hmembership, ?_⟩
    simp only [hfound]

/-- A codel outside the grid starts no block. -/
theorem Partition.extend_of_not_contains (hpad : g.IsPadding g') (hc : ¬ g.Contains c)
    (p : Partition) : extend g' p c = p := by
  refine extend_of_not_free ?_
  rintro ⟨color, hcolor, hne⟩
  exact absurd (hpad.black c color hc hcolor) hne

/-- At first every codel is free. -/
theorem Partition.isFree_start (hc : g.Contains c) : (start g).membership.IsFree c := by
  have hin : (start g).membership.Contains c := hc
  obtain ⟨owner, howner⟩ := Option.isSome_iff_exists.mp (Raster.isSome_get?.mpr hin)
  rw [Membership.IsFree, howner, Raster.eq_of_get?_replicate howner]

/-- The whole scan. -/
theorem Partition.alongside_ofGrid (hpad : g.IsPadding g') :
    (ofGrid g).Alongside g (ofGrid g') := by
  unfold ofGrid
  rw [← hpad.filter_codels, List.foldl_filter]
  refine List.foldl_rel (r := Partition.Alongside g) ⟨?_, rfl⟩ ?_
  · intro c hc
    exact (isFree_start (hpad.contains hc)).trans (isFree_start hc).symm
  · intro c _ p p' h
    by_cases hc : g.Contains c
    · simpa [hc] using h.extend hpad hc
    · simpa [hc, extend_of_not_contains hpad hc] using h

end Alongside

/-! ### Programs -/

namespace Grid.IsPadding

variable {g g' : Grid} (h : g.IsPadding g')

include h

/-- Padding makes no new block and leaves the blocks as they are. -/
theorem blocks_eq : (Program.compile g').blocks = (Program.compile g).blocks :=
  (Partition.alongside_ofGrid h).2

/-- No codel changes its block. Those that were added have none. -/
theorem blockAt?_eq (c : Codel) :
    (Program.compile g').blockAt? c = (Program.compile g).blockAt? c := by
  by_cases hc : g.Contains c
  · exact congrArg Option.join ((Partition.alongside_ofGrid h).1 c hc)
  · have hnone : (Program.compile g).blockAt? c = none :=
      Partition.blockAt?_eq_none_iff.mpr (Or.inl (Raster.get?_eq_none.mpr hc))
    rw [hnone]
    refine Partition.blockAt?_eq_none_iff.mpr ?_
    cases hcolor : g'.get? c with
    | none => exact Or.inl rfl
    | some color => exact Or.inr (by rw [h.black c color hc hcolor])

/-- An exit is blocked by black where it was blocked by the border. -/
theorem transition?_eq {m m' : Membership} (hblock : ∀ c, m'.blockAt? c = m.blockAt? c)
    (b : Block) (q : Heading) : transition? g' m' b q = transition? g m b q := by
  unfold transition?
  refine congrArg (Option.bind _) (funext fun exit => ?_)
  unfold Raster.step
  cases exit.towards? q.dp with
  | none => rfl
  | some entry =>
    by_cases hin : g.Contains entry
    · simp [Option.filter_some, hin, h.contains hin, h.get?_eq entry hin, hblock]
    · -- The entry lies beyond the border: in the larger grid it is black, or
      -- beyond the border too.
      cases hcolor : g'.get? entry with
      | none => simp [Option.filter_some, hin, Raster.get?_eq_none.mp hcolor]
      | some color =>
        simp [Option.filter_some, hin, Raster.contains_of_get? hcolor, hcolor,
          h.black entry color hin hcolor]

/-- All exits lead where they led before. -/
theorem exits_eq : (Program.compile g').exits = (Program.compile g).exits := by
  show (Program.compile g').blocks.map (exitTable g' (Program.compile g').membership)
    = (Program.compile g).blocks.map (exitTable g (Program.compile g).membership)
  rw [h.blocks_eq]
  refine congrArg (Array.map · _) (funext fun b => ?_)
  unfold exitTable
  rw [funext (h.transition?_eq h.blockAt?_eq b)]

/-! ### Slides -/

/-- A walk turns at black as it turns at the border. -/
theorem walk_eq (s : Stance) (n : Nat) : s.walk g' n = s.walk g n := by
  -- A walk asks of the grid only whether it can go ahead.
  have hahead : ∀ t : Stance, t.ahead? g' = t.ahead? g := by
    intro t
    ext c
    rw [Stance.ahead?_eq_some_iff, Stance.ahead?_eq_some_iff, h.open_iff]
  have hon : Stance.walkOn g' = Stance.walkOn g := by
    funext t
    simp only [Stance.walkOn, hahead]
  rw [Stance.walk, Stance.walk, hon]

/-- A slide ends where it ended before. -/
theorem slides {s : Stance} {l : Landing} (hs : s.Slides g l) : s.Slides g' l := by
  cases hs with
  | colored n hwhite hcolor =>
    rw [← h.walk_eq] at hcolor ⊢
    refine .colored n ?_ (h.isColored_iff.mpr hcolor)
    intro k hk
    rw [h.walk_eq, h.isWhite_iff]
    exact hwhite k hk
  | trapped n hwhite hfresh hagain =>
    rw [← h.walk_eq]
    simp only [← h.walk_eq s, ← h.isWhite_iff] at hwhite hfresh hagain
    exact .trapped n hwhite hfresh hagain

/-- So it is the same slide. -/
theorem slide_eq {s : Stance} (hs : g.IsWhite s.codel) : slide g' s = slide g s :=
  (Stance.slides_slide (h.isWhite_iff.mpr hs)).unique (h.slides (Stance.slides_slide hs))

/-- The two programs answer alike. -/
theorem alike : (Program.compile g).Alike (Program.compile g') := by
  refine ⟨h.blockAt?_eq, ?_, ?_⟩
  · intro q
    simp only [Program.move, Program.exit?, Program.transition?, h.blocks_eq, h.exits_eq]
  · intro q start hq hmove
    -- A slide starts on white, which padding neither adds nor takes away.
    have hsure := (Program.strictMove_eq hq).2
    rw [hmove] at hsure
    exact h.slide_eq hsure

end Grid.IsPadding

/-- The border of a grid is like black. If black columns are added to
the right and black rows below, compiling gives the same blocks, the
same block for each codel, the same exits and as many ways out, and the
two programs run in step, from any transcript and under any commands. -/
theorem border_is_black (g : Grid) (columns rows : Nat) :
    (Program.compile (g.pad columns rows)).blocks = (Program.compile g).blocks ∧
      (∀ c, (Program.compile (g.pad columns rows)).blockAt? c = (Program.compile g).blockAt? c) ∧
      (Program.compile (g.pad columns rows)).exits = (Program.compile g).exits ∧
      (Program.compile (g.pad columns rows)).liveTransitions
        = (Program.compile g).liveTransitions ∧
      ∀ (policy : ExhaustedInput) (t : Transcript) (commands : List Command),
        InStep (Machine.afterCommands commands (.load (.compile g) policy, t))
          (Machine.afterCommands commands (.load (.compile (g.pad columns rows)) policy, t)) := by
  have hpad := g.isPadding_pad columns rows
  refine ⟨hpad.blocks_eq, hpad.blockAt?_eq, hpad.exits_eq, ?_, hpad.alike.inStep⟩
  rw [Program.liveTransitions, Program.liveTransitions, hpad.exits_eq]

end EsoHost.Piet
