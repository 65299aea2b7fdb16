import Mathlib.Data.Finset.Card
import EsoHost.Proofs.Piet.Execution
import EsoHost.Proofs.Piet.Segmentation
import EsoHost.Proofs.Piet.Walker

/-!
# `EsoHost.Proofs.Piet.Simulation`: compiled programs run as the grid says

A machine runs a compiled program: it looks up blocks, the block of a
codel and exit tables that were worked out before the run. A walker
(`EsoHost.Proofs.Piet.Walker`) reads everything off the grid when it
needs it. `compiled_run_follows_grid` shows that the two agree after
every sequence of steps, stops and edits of the transcript.

* `transition?_cases`: an entry of an exit table is the way out of a
  region under its heading.
* `goes_move`: the move of a machine whose pointer names the block of
  its codel is where the walker goes.
* `Simulates`: the invariant. Its step lemma is `Simulates.step`;
  `Simulates.stop` and `Simulates.offer` are the same for a stop and an
  edit.

One thing differs while a program waits. Reading a number skips the
blanks before it, and a machine that has to wait then has skipped
them; the walker has not. The next step of both tries to read a number
again, and the next accepted line replaces what was left, so the
blanks never show (`Agrees.transcript_eq`). A machine that is stopped
while it waits reads nothing any more.
-/

set_option autoImplicit false

namespace EsoHost.Piet

/-! ### Exit tables -/

/-- Every coordinate inside the grid fits a signed 64-bit word. The
codels of a grid are held in memory, and there are fewer than `2 ^ 63`
of them. -/
def Grid.Addressable (g : Grid) : Prop := g.width ≤ 2 ^ 63 ∧ g.height ≤ 2 ^ 63

instance (g : Grid) : Decidable g.Addressable := inferInstanceAs (Decidable (_ ∧ _))

/-- The coordinates of the codels inside fit words too. -/
theorem Grid.Addressable.codel {g : Grid} {c : Codel} (h : g.Addressable) (hc : g.Contains c) :
    c.Addressable :=
  ⟨Nat.lt_of_lt_of_le hc.1 h.1, Nat.lt_of_lt_of_le hc.2 h.2⟩

namespace Block.IsRegion

variable {g : Grid} {c : Codel} {b : Block}

/-- The codels of the block are those of the region. -/
theorem region_eq (h : b.IsRegion g c) : {d | d ∈ b.codels.toList} = g.region c := by
  ext d
  show d ∈ b.codels.toList ↔ _
  rw [Array.mem_toList_iff]
  exact h.mem_iff d

/-- The size of a block is the number of codels of the region. -/
theorem ncard_eq (h : b.IsRegion g c) : (g.region c).ncard = b.size := by
  -- A block lists its codels without repetition, so its length counts
  -- them.
  have hcoe : g.region c = ↑b.codels.toList.toFinset := by
    rw [← h.region_eq, List.coe_toFinset]
  rw [hcoe, Set.ncard_coe_finset, List.toFinset_card_of_nodup h.nodup, Array.length_toList]
  rfl

/-- The codels of a block lie inside the grid. -/
theorem addressable (h : b.IsRegion g c) (hg : g.Addressable) {d : Codel} (hd : d ∈ b.codels) :
    d.Addressable := by
  have hjoined : g.Joined c d := (h.mem_iff d).mp hd
  exact hg.codel (Raster.contains_of_get? (hjoined.get?_eq ▸ h.color_eq))

/-- A block of another color than white lies on color. -/
theorem isColored (h : b.IsRegion g c) (hopen : g.Open c) (hcolor : b.color ≠ .white) :
    g.IsColored c := by
  rcases hopen.white_or_colored with hwhite | hcolored
  · exact absurd (Option.some.inj (h.color_eq.symm.trans hwhite)) hcolor
  · exact hcolored

/-- The exit codel of a block is that of the region. -/
theorem exitCodel?_iff (h : b.IsRegion g c) (hg : g.Addressable) {q : Heading} {e : Codel} :
    exitCodel? b.codels.toList q = some e ↔ IsExit (g.region c) q e := by
  rw [exitCodel?_eq_some_iff, h.region_eq]
  intro d hd
  exact h.addressable hg (Array.mem_toList_iff.mp hd)

/-- An entry of the exit table of a block is the way out of the region,
together with the block of the codel on which it ends. -/
theorem transition?_cases (h : b.IsRegion g c) (hg : g.Addressable) (q : Heading) :
    (∃ t, transition? g (Partition.ofGrid g).membership b q = some t ∧ g.Leads c q t.entry ∧
      (Partition.ofGrid g).membership.blockAt? t.entry = some t.target) ∨
    (transition? g (Partition.ofGrid g).membership b q = none ∧ ∀ e, ¬ g.Leads c q e) := by
  cases ht : transition? g (Partition.ofGrid g).membership b q with
  | some t =>
    obtain ⟨hexit, hnext, hopen, htarget⟩ := transition?_eq_some_iff.mp ht
    exact Or.inl ⟨t, rfl, ⟨t.exit, (h.exitCodel?_iff hg).mp hexit, hnext, hopen⟩, htarget⟩
  | none =>
    -- Any way out would be an entry: it leads onto an open codel, and that has a block.
    refine Or.inr ⟨rfl, ?_⟩
    rintro entry ⟨exit, hexit, hnext, hopen⟩
    obtain ⟨target, htarget⟩ := Partition.exists_blockAt?_iff.mpr hopen
    have hsome : transition? g (Partition.ofGrid g).membership b q = some ⟨exit, target, entry⟩ :=
      transition?_eq_some_iff.mpr ⟨(h.exitCodel?_iff hg).mpr hexit, hnext, hopen, htarget⟩
    exact absurd (ht.symm.trans hsome) (by simp)

end Block.IsRegion

/-! ### Moves -/

/-- The eight headings that a machine tries are those that a walker
tries. -/
theorem Heading.attempts_eq (h : Heading) : h.attempts = (List.range 8).map h.tried := by
  obtain ⟨dp, cc⟩ := h
  cases dp <;> cases cc <;> rfl

/-- Searching a numbered list finds the first entry that has a
result. -/
theorem findSome?_map_range_cases {α β : Type} (p : α → Option β) (f : Nat → α) (m : Nat) :
    (∃ n < m, ∃ b, ((List.range m).map f).findSome? p = some b ∧ p (f n) = some b ∧
      ∀ k < n, p (f k) = none) ∨
    (((List.range m).map f).findSome? p = none ∧ ∀ k < m, p (f k) = none) := by
  induction m with
  | zero => exact Or.inr ⟨rfl, fun k hk => absurd hk (Nat.not_lt_zero k)⟩
  | succ m ih =>
    rw [List.range_succ, List.map_append, List.findSome?_append]
    rcases ih with ⟨n, hn, b, hfind, hb, hbefore⟩ | ⟨hfind, hnone⟩
    · exact Or.inl ⟨n, by omega, b, by simp [hfind], hb, hbefore⟩
    · cases hm : p (f m) with
      | some b => exact Or.inl ⟨m, by omega, b, by simp [hfind, hm], hm, hnone⟩
      | none =>
        refine Or.inr ⟨by simp [hfind, hm], fun k hk => ?_⟩
        rcases Nat.lt_or_eq_of_le (Nat.le_of_lt_succ hk) with hk | rfl
        · exact hnone k hk
        · exact hm

/-- A move without the block on which it ends. -/
def Move.way : Move → Way
  | .slide start => .slide start
  | .perform instruction value arrival => .perform instruction value arrival.toStance
  | .blocked => .blocked

section Move

variable {g : Grid} {q : Pointer} {b : Block}

/-- There is an instruction between any two of the eighteen colors. -/
theorem Grid.Open.isWhite_of_between? {c d : Codel} {here there : Color} (hd : g.Open d)
    (hc : g.IsColored c) (hhere : g.get? c = some here) (hthere : g.get? d = some there)
    (hbetween : Instruction.between? here there = none) : g.IsWhite d := by
  rcases hd.white_or_colored with hwhite | ⟨hue', lightness', hcolor'⟩
  · exact hwhite
  · obtain ⟨hue, lightness, hcolor⟩ := hc
    cases Option.some.inj (hhere.symm.trans hcolor)
    cases Option.some.inj (hthere.symm.trans hcolor')
    exact absurd hbetween (by simp [Instruction.between?, Color.stepsTo?])

/-- The exits that a program tries are the ways out that the region
offers. -/
theorem exit?_cases (hg : g.Addressable) (hb : (Program.compile g).blocks[q.block]? = some b)
    (hregion : b.IsRegion g q.codel) (hcolor : b.color ≠ .white) :
    (∃ n t, (Program.compile g).exit? q.block q.heading = some (q.heading.tried n, t) ∧
      g.Leaves q.toStance n t.entry ∧ (Program.compile g).blockAt? t.entry = some t.target) ∨
    ((Program.compile g).exit? q.block q.heading = none ∧
      ∀ n < 8, ∀ e, ¬ g.Leads q.codel (q.heading.tried n) e) := by
  -- The table of a colored block holds the exits of its region.
  have htable : ∀ h, (Program.compile g).transition? q.block h
      = transition? g (Partition.ofGrid g).membership b h := by
    intro h
    have hblock : (Partition.ofGrid g).blocks[q.block]? = some b := hb
    simp [Program.transition?, Program.compile, Program.assemble, hblock, exitTable, hcolor]
  -- An attempt without a result has no way out.
  have hclosed : ∀ h, ((Program.compile g).transition? q.block h).map (fun t => (h, t)) = none →
      ∀ e, ¬ g.Leads q.codel h e := by
    intro h hnone
    rw [Option.map_eq_none_iff, htable] at hnone
    rcases hregion.transition?_cases hg h with ⟨t, ht, -⟩ | ⟨-, hleads⟩
    · exact absurd (hnone.symm.trans ht) (by simp)
    · exact hleads
  unfold Program.exit?
  rw [Heading.attempts_eq]
  rcases findSome?_map_range_cases
      (fun h => ((Program.compile g).transition? q.block h).map fun t => (h, t))
      q.heading.tried 8 with
    ⟨n, hn, out, hfind, hout, hbefore⟩ | ⟨hfind, hnone⟩
  · obtain ⟨t, ht, rfl⟩ := Option.map_eq_some_iff.mp hout
    refine Or.inl ⟨n, t, hfind, ?_⟩
    rw [htable] at ht
    rcases hregion.transition?_cases hg (q.heading.tried n) with ⟨t', ht', hleads, htarget⟩ |
      ⟨hnot, -⟩
    · cases Option.some.inj (ht.symm.trans ht')
      exact ⟨⟨hn, fun k hk => hclosed _ (hbefore k hk), hleads⟩, htarget⟩
    · exact absurd (hnot.symm.trans ht) (by simp)
  · exact Or.inr ⟨hfind, fun n hn => hclosed _ (hnone n hn)⟩

/-- The move from a pointer that names the block of its codel is the
way on from its stance. A pointer that moves to another block names
that block. -/
theorem goes_move (hg : g.Addressable)
    (hq : (Program.compile g).blockAt? q.codel = some q.block) :
    Walker.Goes g q.toStance ((Program.compile g).move q).way ∧
    ∀ instruction value arrival,
      (Program.compile g).move q = .perform instruction value arrival →
      (Program.compile g).blockAt? arrival.codel = some arrival.block := by
  obtain ⟨b, hb, hregion⟩ := Partition.exists_block_of_blockAt? hq
  have hb : (Program.compile g).blocks[q.block]? = some b := hb
  have hopen : g.Open q.codel := Partition.exists_blockAt?_iff.mp ⟨q.block, hq⟩
  by_cases hwhite : b.color = .white
  · have hmove : (Program.compile g).move q = .slide q.toStance := by
      simp [Program.move, hb, hwhite]
    have honWhite : g.IsWhite q.codel := by rw [Grid.IsWhite, hregion.color_eq, hwhite]
    rw [hmove]
    exact ⟨.white honWhite, fun _ _ _ h => absurd h (by simp)⟩
  · have hcolored : g.IsColored q.codel := hregion.isColored hopen hwhite
    rcases exit?_cases hg hb hregion hwhite with ⟨n, t, hexit, hleaves, htarget⟩ | ⟨hexit, hclosed⟩
    · obtain ⟨b', hb', hregion'⟩ := Partition.exists_block_of_blockAt? htarget
      have hb' : (Program.compile g).blocks[t.target]? = some b' := hb'
      cases hbetween : Instruction.between? b.color b'.color with
      | some instruction =>
        have hmove : (Program.compile g).move q
            = .perform instruction b.size ⟨⟨t.entry, q.heading.tried n⟩, t.target⟩ := by
          simp [Program.move, hb, hwhite, hexit, hb', hbetween]
        rw [hmove, ← hregion.ncard_eq]
        refine ⟨?_, ?_⟩
        · exact .perform n t.entry _ _ instruction hleaves hregion.color_eq hregion'.color_eq
            hbetween
        · rintro _ _ _ h
          cases h
          exact htarget
      | none =>
        have hmove : (Program.compile g).move q = .slide ⟨t.entry, q.heading.tried n⟩ := by
          simp [Program.move, hb, hwhite, hexit, hb', hbetween]
        rw [hmove]
        refine ⟨.enter n t.entry hcolored hleaves ?_, fun _ _ _ h => absurd h (by simp)⟩
        obtain ⟨exit, -, -, hentry⟩ := hleaves.leads
        exact hentry.isWhite_of_between? hcolored hregion.color_eq hregion'.color_eq hbetween
    · have hmove : (Program.compile g).move q = .blocked := by
        simp [Program.move, hb, hwhite, hexit]
      rw [hmove]
      exact ⟨.blocked hcolored hclosed, fun _ _ _ h => absurd h (by simp)⟩

end Move

/-! ### The simulation -/

/-- What a command does to a machine and its transcript. -/
def Command.apply : Command → Machine × Transcript → Machine × Transcript
  | .step, (m, t) => m.step t
  | .stop, (m, t) => (m.stop, t)
  | .offer text, (m, t) => (m, (t.offer text).2)

/-- The machine and its transcript after a sequence of commands. -/
def Machine.afterCommands (commands : List Command) (s : Machine × Transcript) :
    Machine × Transcript :=
  commands.foldl (fun s command => command.apply s) s

/-- A machine with its transcript shows what a walker shows, after the
same commands. -/
structure Agrees (commands : List Command) (m : Machine) (t : Transcript) (w : Walker) :
    Prop where
  stance_eq : m.pointer.toStance = w.toStance
  stack_eq : m.stack = w.stack
  status_eq : m.status = w.status
  /-- A machine that waits for a number has skipped the blanks before
  it. If it is stopped then, they stay skipped. -/
  transcript_eq : t = w.transcript ∨
    (w.status = .awaitingInput ∨ .stop ∈ commands ∧ w.status = .halted .stopped) ∧
      Skipped t w.transcript

/-- The invariant, after the commands `past`: both agree, the machine
runs the program of the grid, its pointer names the block of its codel,
and if it has skipped blanks it is still about to read a number. -/
structure Simulates (g : Grid) (policy : ExhaustedInput) (past : List Command) (m : Machine)
    (t : Transcript) (w : Walker) : Prop extends Agrees past m t w where
  program_eq : m.program = Program.compile g
  policy_eq : m.policy = policy
  block_eq : ¬ m.status.isHalted → m.program.blockAt? m.pointer.codel = some m.pointer.block
  retry : t ≠ w.transcript →
    ∃ value arrival, Walker.Goes g w.toStance (.perform .inNumber value arrival)

section Simulation

variable {g : Grid} {policy : ExhaustedInput} {past : List Command} {m : Machine}
  {t : Transcript} {w : Walker}

/-- The machine of a program at its start. -/
theorem Machine.load_of_blockAt? {block : Nat} (policy : ExhaustedInput)
    (h : (Program.compile g).blockAt? .origin = some block) :
    Machine.load (.compile g) policy
      = { program := .compile g, policy := policy, pointer := ⟨⟨.origin, ⟨.right, .left⟩⟩, block⟩
          stack := .empty, status := .running, lastInstruction := none, steps := 0 } := by
  simp only [Machine.load, h]

/-- A machine that has no block to start on has halted before its first
step. -/
theorem Machine.load_of_blockAt?_none (policy : ExhaustedInput)
    (h : (Program.compile g).blockAt? .origin = none) :
    Machine.load (.compile g) policy
      = { program := .compile g, policy := policy, pointer := ⟨⟨.origin, ⟨.right, .left⟩⟩, 0⟩
          stack := .empty, status := .halted .blocked, lastInstruction := none, steps := 0 } := by
  simp only [Machine.load, h]

/-- The invariant holds at the start. -/
theorem simulates_load (g : Grid) (policy : ExhaustedInput) (t : Transcript) :
    Simulates g policy [] (.load (.compile g) policy) t (.start g t) := by
  have hiff := Partition.exists_blockAt?_iff (g := g) (c := .origin)
  cases horigin : (Program.compile g).blockAt? .origin with
  | some block =>
    have hopen : g.Open .origin := hiff.mp ⟨block, horigin⟩
    rw [Machine.load_of_blockAt? policy horigin]
    refine ⟨⟨rfl, rfl, ?_, Or.inl rfl⟩, rfl, rfl, fun _ => horigin, fun hne => absurd rfl hne⟩
    simp [Walker.start, hopen]
  | none =>
    have hclosed : ¬ g.Open .origin := by
      intro hopen
      obtain ⟨block, hblock⟩ := hiff.mpr hopen
      exact absurd (horigin.symm.trans hblock) (by simp)
    rw [Machine.load_of_blockAt?_none policy horigin]
    refine ⟨⟨rfl, rfl, ?_, Or.inl rfl⟩, rfl, rfl, fun h => absurd rfl h, fun hne => absurd rfl hne⟩
    simp [Walker.start, hclosed]

/-- Counting a step shows nowhere. -/
theorem Simulates.count (h : Simulates g policy past m t w) (n : Nat) :
    Simulates g policy past { m with steps := n } t w :=
  ⟨⟨h.stance_eq, h.stack_eq, h.status_eq, h.transcript_eq⟩, h.program_eq, h.policy_eq, h.block_eq,
    h.retry⟩

/-- An open codel has a block, so the pointer gets there. -/
theorem Machine.exists_moveTo (hm : m.program = .compile g) {s : Stance} (h : g.Open s.codel) :
    ∃ block, (Program.compile g).blockAt? s.codel = some block ∧
      m.moveTo s = { m with pointer := ⟨s, block⟩ } := by
  obtain ⟨block, hblock⟩ := Partition.exists_blockAt?_iff.mpr h
  refine ⟨block, hblock, ?_⟩
  have hat : m.program.blockAt? s.codel = some block := by
    rw [hm]
    exact hblock
  simp only [Machine.moveTo, hat]

/-- More commands leave it as it is. A stop among them matters only
where there was one before. -/
theorem Simulates.later (h : Simulates g policy past m t w) (commands : List Command) :
    Simulates g policy (past ++ commands) m t w := by
  refine ⟨⟨h.stance_eq, h.stack_eq, h.status_eq, ?_⟩, h.program_eq, h.policy_eq, h.block_eq,
    h.retry⟩
  refine h.transcript_eq.imp_right (And.imp_left (Or.imp_right (And.imp_left ?_)))
  exact List.mem_append_left commands

/-- A slide that ends on an open codel. -/
theorem Simulates.land (h : Simulates g policy past m t w) (ht : t = w.transcript) {l : Landing}
    (hopen : g.Open l.stance.codel) : Simulates g policy past (m.land l) t (w.land l) := by
  obtain ⟨block, hblock, hmove⟩ := Machine.exists_moveTo h.program_eq hopen
  rw [← h.program_eq] at hblock
  cases l with
  | colored s =>
    simp only [Landing.stance] at hmove hblock
    simp only [Machine.land, Walker.land, hmove]
    exact ⟨⟨rfl, h.stack_eq, rfl, Or.inl ht⟩, h.program_eq, h.policy_eq, fun _ => hblock,
      fun hne => absurd ht hne⟩
  | trapped s =>
    simp only [Landing.stance] at hmove hblock
    simp only [Machine.land, Walker.land, hmove]
    exact ⟨⟨rfl, h.stack_eq, rfl, Or.inl ht⟩, h.program_eq, h.policy_eq, fun _ => hblock,
      fun hne => absurd ht hne⟩

/-- The instruction on the way to another colored block has the same
effect on both. If blanks were skipped, it is a number that is read,
and skipping them again changes nothing. -/
theorem Simulates.execute_eq (h : Simulates g policy past m t w) {instruction : Instruction}
    {value : Nat} {arrival : Stance}
    (hgoes : Walker.Goes g w.toStance (.perform instruction value arrival)) :
    execute m.policy value ⟨m.stack, arrival.heading, t⟩ instruction
      = execute policy value ⟨w.stack, arrival.heading, w.transcript⟩ instruction := by
  rw [h.policy_eq, h.stack_eq]
  rcases h.transcript_eq with rfl | ⟨-, hskipped⟩
  · rfl
  · by_cases ht : t = w.transcript
    · rw [ht]
    · -- There is one way on, so the instruction is the number that was waited
      -- for.
      obtain ⟨value', arrival', hretry⟩ := h.retry ht
      cases hgoes.unique hretry
      exact execute_inNumber_of_skipped hskipped

/-- An instruction on the way from color to color. A read that waits
leaves blanks unread for the walker only, and is tried again. -/
theorem Simulates.perform (h : Simulates g policy past m t w) (hlive : ¬ m.status.isHalted)
    {instruction : Instruction} {value : Nat} {arrival : Pointer}
    (hgoes : Walker.Goes g w.toStance (.perform instruction value arrival.toStance))
    (hblock : m.program.blockAt? arrival.codel = some arrival.block) :
    Simulates g policy past (m.perform t instruction value arrival).1
      (m.perform t instruction value arrival).2
      (w.perform policy instruction value arrival.toStance) := by
  have hexec := h.execute_eq hgoes
  cases hresult : execute policy value ⟨w.stack, arrival.heading, w.transcript⟩ instruction with
  | mk verdict f =>
    rw [hresult] at hexec
    simp only [Machine.perform, Walker.perform, hexec, hresult]
    cases verdict with
    | done =>
      exact ⟨⟨rfl, rfl, rfl, Or.inl rfl⟩, h.program_eq, h.policy_eq, fun _ => hblock,
        fun hne => absurd rfl hne⟩
    | wait =>
      obtain ⟨hstack, -, hread⟩ := execute_wait hresult
      refine ⟨⟨h.stance_eq, hstack, rfl, ?_⟩, h.program_eq, h.policy_eq,
        fun _ => h.block_eq hlive, ?_⟩
      · exact hread.imp_right fun hinNumber => ⟨Or.inl rfl, hinNumber.2⟩
      · intro hne
        rcases hread with heq | ⟨rfl, -⟩
        · exact absurd heq hne
        · exact ⟨value, arrival.toStance, hgoes⟩
    -- A machine that has halted need not know its block.
    | halt reason =>
      exact ⟨⟨h.stance_eq, rfl, rfl, Or.inl rfl⟩, h.program_eq, h.policy_eq,
        fun hnot => absurd rfl hnot, fun hne => absurd rfl hne⟩

/-- A machine that has skipped blanks does not do anything but read. -/
theorem Simulates.transcript_eq_of_goes (h : Simulates g policy past m t w) {way : Way}
    (hgoes : Walker.Goes g w.toStance way)
    (hway : ∀ instruction value arrival, way ≠ .perform instruction value arrival) :
    t = w.transcript := by
  by_contra hne
  obtain ⟨value, arrival, hretry⟩ := h.retry hne
  exact hway _ _ _ (hgoes.unique hretry)

/-- One step of the machine is one step of the walker. -/
theorem Simulates.step (hg : g.Addressable) (h : Simulates g policy past m t w) :
    ∃ w', Walker.Step g policy w w' ∧ Simulates g policy past (m.step t).1 (m.step t).2 w' := by
  by_cases hhalted : m.status.isHalted
  · rw [Machine.step_of_halted hhalted]
    exact ⟨w, .halted (h.status_eq ▸ hhalted), h⟩
  · have hlive : ¬ w.status.isHalted := h.status_eq ▸ hhalted
    have hcount := h.count (m.steps + 1)
    obtain ⟨hgoes, harrival⟩ := goes_move hg (h.program_eq ▸ h.block_eq hhalted)
    rw [h.stance_eq] at hgoes
    rw [← h.program_eq] at hgoes harrival
    cases hmove : m.program.move m.pointer with
    | slide start =>
      rw [hmove] at hgoes
      have ht := h.transcript_eq_of_goes hgoes (by simp [Move.way])
      have hgrid : m.program.grid = g := by rw [h.program_eq]; rfl
      have hslides := Stance.slides_slide hgoes.isWhite
      rw [Machine.step_of_slide hhalted hmove, hgrid]
      exact ⟨_, .slide start _ hlive hgoes hslides, hcount.land ht hslides.open⟩
    | perform instruction value arrival =>
      rw [hmove] at hgoes
      rw [Machine.step_of_perform hhalted hmove]
      exact ⟨_, .perform instruction value _ hlive hgoes,
        hcount.perform hhalted hgoes (harrival _ _ _ hmove)⟩
    | blocked =>
      rw [hmove] at hgoes
      have ht := h.transcript_eq_of_goes hgoes (by simp [Move.way])
      rw [Machine.step_of_blocked hhalted hmove]
      refine ⟨_, .blocked hlive hgoes, ?_⟩
      exact ⟨⟨h.stance_eq, h.stack_eq, rfl, Or.inl ht⟩, h.program_eq, h.policy_eq,
        fun hnot => absurd rfl hnot, fun hne => absurd ht hne⟩

/-- A stop. The blanks that were skipped stay skipped. -/
theorem Simulates.stop (h : Simulates g policy past m t w) :
    Simulates g policy (past ++ [.stop]) m.stop t { w with status := w.status.stop } := by
  refine ⟨⟨h.stance_eq, h.stack_eq, congrArg Status.stop h.status_eq, ?_⟩, h.program_eq,
    h.policy_eq, fun hlive => absurd m.status.isHalted_stop hlive, h.retry⟩
  have hmem : Command.stop ∈ past ++ [.stop] := List.mem_append_right past List.mem_cons_self
  refine h.transcript_eq.imp_right (And.imp_left fun hstatus => Or.inr ⟨hmem, ?_⟩)
  -- A walker that waits is stopped, and one that was stopped stays so.
  rcases hstatus with hwait | ⟨-, hstopped⟩
  · exact congrArg Status.stop hwait
  · exact congrArg Status.stop hstopped

/-- An edit of the transcript. -/
theorem Simulates.offer (h : Simulates g policy past m t w) (text : String) :
    Simulates g policy past m (t.offer text).2
      { w with transcript := (w.transcript.offer text).2 } := by
  refine ⟨⟨h.stance_eq, h.stack_eq, h.status_eq, ?_⟩, h.program_eq, h.policy_eq, h.block_eq, ?_⟩
  · rcases h.transcript_eq with rfl | ⟨hstatus, hskipped⟩
    · exact Or.inl rfl
    · -- An accepted edit replaces what was left to read, blanks included.
      exact (offer_of_skipped hskipped text).imp_right fun ⟨hstill, _⟩ => ⟨hstatus, hstill⟩
  · intro hne
    refine h.retry fun ht => hne ?_
    rw [ht]

/-- Any sequence of commands. -/
theorem Simulates.after (hg : g.Addressable) (h : Simulates g policy past m t w)
    (commands : List Command) :
    ∃ w', Walker.Runs g policy commands w w' ∧
      Simulates g policy (past ++ commands) (Machine.afterCommands commands (m, t)).1
        (Machine.afterCommands commands (m, t)).2 w' := by
  induction commands generalizing past m t w with
  | nil => exact ⟨w, .done w, h.later []⟩
  | cons command commands ih =>
    -- The first command joins the past, and the rest is left to the
    -- induction.
    rw [← List.singleton_append, ← List.append_assoc]
    cases command with
    | step =>
      obtain ⟨w₁, hstep, h₁⟩ := h.step hg
      obtain ⟨w₂, hruns, h₂⟩ := ih (h₁.later [.step])
      exact ⟨w₂, .step hstep hruns, h₂⟩
    | stop =>
      obtain ⟨w₂, hruns, h₂⟩ := ih h.stop
      exact ⟨w₂, .stop hruns, h₂⟩
    | offer text =>
      obtain ⟨w₂, hruns, h₂⟩ := ih ((h.offer text).later [.offer text])
      exact ⟨w₂, .offer text hruns, h₂⟩

end Simulation

/-- A compiled program runs as the grid says. After every sequence of
steps, stops and edits, from any transcript, a walker that started at
the top left codel of the grid has come to one state, and the machine
shows what this state shows. -/
theorem compiled_run_follows_grid (g : Grid) (hg : g.Addressable) (policy : ExhaustedInput)
    (t : Transcript) (commands : List Command) :
    ∃ w, Walker.Runs g policy commands (.start g t) w ∧
      (∀ w', Walker.Runs g policy commands (.start g t) w' → w' = w) ∧
      Agrees commands (Machine.afterCommands commands (.load (.compile g) policy, t)).1
        (Machine.afterCommands commands (.load (.compile g) policy, t)).2 w := by
  obtain ⟨w, hruns, h⟩ := (simulates_load g policy t).after hg commands
  exact ⟨w, hruns, fun w' hruns' => hruns'.unique hruns, h.toAgrees⟩

/-- Light red, white and red in a row, above black, light blue and
white: the run crosses white, and turns at walls. -/
def crossing : Grid where
  width := 3
  height := 2
  cells := #[.chromatic .red .light, .white, .chromatic .red .normal,
    .black, .chromatic .blue .light, .white]
  size_cells := rfl
  width_pos := by decide
  height_pos := by decide

/-- The run crosses white, its transcript is edited, and it goes on. -/
theorem compiled_run_follows_crossing :
    crossing.Addressable ∧
    ∃ w, Walker.Runs crossing .skip [.step, .offer "### Running...\n\n7\n", .step, .step]
        (.start crossing (.fresh .interactive)) w ∧
      (∀ w', Walker.Runs crossing .skip [.step, .offer "### Running...\n\n7\n", .step, .step]
        (.start crossing (.fresh .interactive)) w' → w' = w) ∧
      Agrees [.step, .offer "### Running...\n\n7\n", .step, .step]
        (Machine.afterCommands [.step, .offer "### Running...\n\n7\n", .step, .step]
          (.load (.compile crossing) .skip, .fresh .interactive)).1
        (Machine.afterCommands [.step, .offer "### Running...\n\n7\n", .step, .step]
          (.load (.compile crossing) .skip, .fresh .interactive)).2 w :=
  ⟨by decide, compiled_run_follows_grid crossing (by decide) .skip (.fresh .interactive) _⟩

end EsoHost.Piet
