import EsoHost.Proofs.Piet.Footing

/-!
# `EsoHost.Proofs.Piet.ExitTable`: compiled exits are the ways out of the grid

Compiling a grid works out, for each block and heading, whether there is
a way out of the block and where it leads. Nothing in this work looks at
the block that is left: that a way out leads to another block, and to
another color, is a fact about regions.

* `Partition.exists_region_of_block`: every block is the region of a
  codel.
* `exit_is_the_extreme_member` says through which codel a block is left,
  for any list of codels.
* `ExitTable.Follows` says what is right for the table of one block, and
  `exit_tables_follow_grid` that every table of a compiled grid is.

A way out leads through the codel that lies furthest towards its
direction, so the codel beyond it cannot lie in the region; and a region
holds all codels of its color that touch it (`Grid.Leads.get?_ne`).
-/

set_option autoImplicit false

namespace EsoHost.Piet

/-- Every block is the region of one of its codels. -/
theorem Partition.exists_region_of_block {g : Grid} {i : Nat} {b : Block}
    (hb : (ofGrid g).blocks[i]? = some b) :
    ∃ c ∈ b.codels, b.IsRegion g c ∧ g.Open c ∧ (ofGrid g).membership.blockAt? c = some i := by
  obtain ⟨first, -, hgrown⟩ := (scanned_ofGrid g).grown i b hb
  refine ⟨first, ?_, ⟨hgrown.color_eq, hgrown.nodup, hgrown.mem_iff⟩,
    ⟨b.color, hgrown.color_eq, hgrown.color_ne⟩, ?_⟩
  · exact (hgrown.mem_iff first).mpr (.refl g first)
  · exact Membership.blockAt?_eq_some_iff.mpr ((hgrown.get?_iff first).mpr (.refl g first))

/-- Only an empty list has no exit codel. That of any other list is its
one member that no member beats in distance towards the heading's
direction, nor, of those equally far, towards the chooser's side. So it
depends on nothing but which codels the list holds. Coordinates have to
fit words, and those of a block in a grid do. -/
theorem exit_is_the_extreme_member :
    (∀ (cs : List Codel) (h : Heading), (∀ c ∈ cs, c.Addressable) →
      (exitCodel? cs h = none ↔ cs = []) ∧
      (∀ e, exitCodel? cs h = some e ↔ IsExit {c | c ∈ cs} h e) ∧
      (cs ≠ [] → ∃! e, IsExit {c | c ∈ cs} h e) ∧
      ∀ cs' : List Codel, (∀ c, c ∈ cs' ↔ c ∈ cs) → exitCodel? cs' h = exitCodel? cs h) ∧
    ∀ (g : Grid) (i : Nat) (b : Block), g.Addressable →
      (Program.compile g).blocks[i]? = some b → ∀ c ∈ b.codels, c.Addressable := by
  constructor
  · intro cs h hfit
    refine ⟨exitCodel?_eq_none_iff, fun _ => exitCodel?_eq_some_iff hfit, ?_,
      fun _ hsame => exitCodel?_congr hfit hsame h⟩
    intro hcs
    obtain ⟨e, -, he⟩ := exists_exitCodel? hcs h
    have hexit := (exitCodel?_eq_some_iff hfit).mp he
    exact ⟨e, hexit, fun e' he' => he'.unique hexit⟩
  · intro g i b hg hb c hc
    obtain ⟨first, -, hregion, -⟩ := Partition.exists_region_of_block hb
    exact hregion.addressable hg hc

/-- A column with a gap, and a codel to its left. The pointer leaves to
the right through the upper end, if the chooser leans to the left. -/
theorem gapped_column_exit_is_the_extreme_member :
    (∀ c ∈ [Codel.mk 1 0, ⟨0, 1⟩, ⟨1, 2⟩], c.Addressable) ∧
    IsExit {c | c ∈ [Codel.mk 1 0, ⟨0, 1⟩, ⟨1, 2⟩]} ⟨.right, .left⟩ ⟨1, 0⟩ ∧
    (∃! e, IsExit {c | c ∈ [Codel.mk 1 0, ⟨0, 1⟩, ⟨1, 2⟩]} ⟨.right, .left⟩ e) ∧
    exitCodel? [⟨1, 2⟩, ⟨1, 0⟩, ⟨0, 1⟩, ⟨1, 2⟩, ⟨1, 0⟩] ⟨.right, .left⟩ = some ⟨1, 0⟩ ∧
    crossing.Addressable ∧
    ∃ (i : Nat) (b : Block), (Program.compile crossing).blocks[i]? = some b ∧
      ∀ c ∈ b.codels, c.Addressable := by
  have hfit : ∀ c ∈ [Codel.mk 1 0, ⟨0, 1⟩, ⟨1, 2⟩], c.Addressable := by
    simp [Codel.Addressable]
  obtain ⟨hlist, hblock⟩ := exit_is_the_extreme_member
  obtain ⟨-, hiff, hunique, hsame⟩ := hlist _ ⟨.right, .left⟩ hfit
  have hexit : exitCodel? [Codel.mk 1 0, ⟨0, 1⟩, ⟨1, 2⟩] ⟨.right, .left⟩ = some ⟨1, 0⟩ := by
    decide
  refine ⟨hfit, (hiff _).mp hexit, hunique (by simp), ?_, by decide, ?_⟩
  · rw [hsame _ (by grind), hexit]
  · have horigin : crossing.Open .origin := ⟨.chromatic .red .light, rfl, by decide⟩
    obtain ⟨i, hi⟩ := Partition.exists_blockAt?_iff.mpr horigin
    obtain ⟨b, hb, -⟩ := Partition.exists_block_of_blockAt? hi
    exact ⟨i, b, hb, hblock crossing i b (by decide) hb⟩

/-- The table says how block number `i` of a program is left on the grid
`g`. -/
structure ExitTable.Follows (g : Grid) (p : Program) (i : Nat) (b : Block) (table : ExitTable) :
    Prop where
  /-- White is not left by a table. -/
  white : b.color = .white → ∀ h, table.get h = none
  /-- Every heading leads through one codel of the block. -/
  exit : ∀ h, ∃ exit ∈ b.codels, exitCodel? b.codels.toList h = some exit
  /-- An entry leads from that codel onto the one beyond it, if this is
  open, and names its block. -/
  get_iff : b.color ≠ .white → ∀ h t, table.get h = some t ↔
    exitCodel? b.codels.toList h = some t.exit ∧ t.exit.towards? h.dp = some t.entry ∧
      g.Open t.entry ∧ p.blockAt? t.entry = some t.target
  /-- Where the codel beyond is open, there is an entry: it has a block
  for certain. -/
  isSome_iff : b.color ≠ .white → ∀ h, (table.get h).isSome ↔
    ∃ exit entry, exitCodel? b.codels.toList h = some exit ∧ exit.towards? h.dp = some entry ∧
      g.Open entry
  /-- An entry leads through the codel that lies furthest towards its
  heading, into another block, of another color. Exits are chosen by
  coordinates in words, so these have to fit. -/
  leaves : g.Addressable → ∀ h t, table.get h = some t →
    IsExit {c | c ∈ b.codels} h t.exit ∧ t.target ≠ i ∧
      ∃ b', p.blocks[t.target]? = some b' ∧ b'.color ≠ b.color

section Follows

variable {g : Grid} {i : Nat} {b : Block}

/-- A transition leaves its block, and changes color. -/
theorem Program.leaves_of_transition? (hb : (compile g).blocks[i]? = some b) (hg : g.Addressable)
    {h : Heading} {t : Transition}
    (ht : Piet.transition? g (Partition.ofGrid g).membership b h = some t) :
    IsExit {c | c ∈ b.codels} h t.exit ∧ t.target ≠ i ∧
      ∃ b', (compile g).blocks[t.target]? = some b' ∧ b'.color ≠ b.color := by
  obtain ⟨c, -, hregion, hopen, -⟩ := Partition.exists_region_of_block hb
  obtain ⟨hexit, hnext, hentry, htarget⟩ := transition?_eq_some_iff.mp ht
  have hisExit : IsExit (g.region c) h t.exit := (hregion.exitCodel?_iff hg).mp hexit
  obtain ⟨b', hb', hregion'⟩ := Partition.exists_block_of_blockAt? htarget
  -- The codel beyond an exit would lie in the region itself if it had the
  -- same color.
  have hcolor : b'.color ≠ b.color := by
    intro hsame
    have hleads : g.Leads c h t.entry := ⟨t.exit, hisExit, hnext, hentry⟩
    apply hleads.get?_ne hopen
    rw [hregion'.color_eq, hregion.color_eq, hsame]
  refine ⟨?_, ?_, b', hb', hcolor⟩
  · rw [← hregion.region_eq] at hisExit
    simpa only [Array.mem_toList_iff] using hisExit
  · -- One block has one color.
    rintro rfl
    exact hcolor (congrArg Block.color (Option.some.inj (hb'.symm.trans hb)))

/-- The table that is worked out for a block follows the grid. -/
theorem exitTable_follows (hb : (Program.compile g).blocks[i]? = some b) :
    (exitTable g (Partition.ofGrid g).membership b).Follows g (.compile g) i b := by
  obtain ⟨c, hc, -⟩ := Partition.exists_region_of_block hb
  have hexit : ∀ h, ∃ exit ∈ b.codels, exitCodel? b.codels.toList h = some exit := by
    intro h
    obtain ⟨exit, hmem, hexit⟩ :=
      exists_exitCodel? (List.ne_nil_of_mem (Array.mem_toList_iff.mpr hc)) h
    exact ⟨exit, Array.mem_toList_iff.mp hmem, hexit⟩
  -- A white block has an empty table, and any other has an entry for each
  -- transition.
  by_cases hwhite : b.color = .white
  · have htable : ∀ h, (exitTable g (Partition.ofGrid g).membership b).get h = none := by
      intro h
      rw [exitTable, if_pos hwhite, ExitTable.get_ofFn]
    refine ⟨fun _ => htable, hexit, fun hne => absurd hwhite hne, fun hne => absurd hwhite hne, ?_⟩
    intro _ h t ht
    exact absurd ((htable h).symm.trans ht) (by simp)
  · have htable : ∀ h, (exitTable g (Partition.ofGrid g).membership b).get h
        = transition? g (Partition.ofGrid g).membership b h := by
      intro h
      rw [exitTable, if_neg hwhite, ExitTable.get_ofFn]
    refine ⟨fun hw => absurd hw hwhite, hexit, fun _ h t => ?_, fun _ h => ?_, fun hg h t ht => ?_⟩
    · rw [htable]
      exact transition?_eq_some_iff
    · rw [htable, Option.isSome_iff_exists]
      constructor
      · rintro ⟨t, ht⟩
        obtain ⟨hexit, hnext, hopen, -⟩ := transition?_eq_some_iff.mp ht
        exact ⟨t.exit, t.entry, hexit, hnext, hopen⟩
      · -- An open codel has a block, so looking it up blocks no exit.
        rintro ⟨exit, entry, hexit, hnext, hopen⟩
        obtain ⟨target, htarget⟩ := Partition.exists_blockAt?_iff.mpr hopen
        exact ⟨⟨exit, target, entry⟩, transition?_eq_some_iff.mpr ⟨hexit, hnext, hopen, htarget⟩⟩
    · rw [htable] at ht
      exact Program.leaves_of_transition? hb hg ht

end Follows

/-- The exits of a compiled grid are the ways out of its regions: there
is one table for each block, and every table follows the grid. -/
theorem exit_tables_follow_grid (g : Grid) :
    (Program.compile g).exits.size = (Program.compile g).blocks.size ∧
    ∀ (i : Nat) (b : Block), (Program.compile g).blocks[i]? = some b →
      ∃ table, (Program.compile g).exits[i]? = some table ∧ table.Follows g (.compile g) i b := by
  refine ⟨Array.size_map, fun i b hb => ⟨_, ?_, exitTable_follows hb⟩⟩
  show ((Program.compile g).blocks.map (exitTable g (Partition.ofGrid g).membership))[i]? = _
  rw [Array.getElem?_map, hb]
  rfl

/-- Light red is left to the right, onto white. -/
theorem exit_tables_follow_crossing :
    crossing.Addressable ∧
    (Program.compile crossing).exits.size = (Program.compile crossing).blocks.size ∧
    ∃ (i : Nat) (b : Block) (table : ExitTable), (Program.compile crossing).blocks[i]? = some b ∧
      b.color = .chromatic .red .light ∧ (Program.compile crossing).exits[i]? = some table ∧
      table.Follows crossing (.compile crossing) i b ∧ (table.get ⟨.right, .left⟩).isSome := by
  obtain ⟨hsize, htables⟩ := exit_tables_follow_grid crossing
  have horigin : crossing.Open .origin := ⟨.chromatic .red .light, rfl, by decide⟩
  obtain ⟨i, hi⟩ := Partition.exists_blockAt?_iff.mpr horigin
  obtain ⟨b, hb, hregion⟩ := Partition.exists_block_of_blockAt? hi
  have hcolor : b.color = .chromatic .red .light := (Option.some.inj hregion.color_eq).symm
  obtain ⟨table, htable, hfollows⟩ := htables i b hb
  refine ⟨by decide, hsize, i, b, table, hb, hcolor, htable, hfollows, ?_⟩
  obtain ⟨exit, hmem, hexit⟩ := hfollows.exit ⟨.right, .left⟩
  have hlight : crossing.get? exit = some (.chromatic .red .light) :=
    ((hregion.mem_iff exit).mp hmem).get?_eq.symm
  -- There is one codel of this color.
  have hsingle : ∀ c ∈ crossing.codels,
      crossing.get? c = some (.chromatic .red .light) → c = .origin := by decide
  obtain rfl := hsingle exit (Raster.mem_codels_iff.mpr (Raster.contains_of_get? hlight)) hlight
  rw [hfollows.isSome_iff (by rw [hcolor]; decide)]
  exact ⟨_, ⟨1, 0⟩, hexit, rfl, .white, rfl, by decide⟩

end EsoHost.Piet
