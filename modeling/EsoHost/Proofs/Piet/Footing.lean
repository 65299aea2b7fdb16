import EsoHost.Proofs.Piet.Simulation

/-!
# `EsoHost.Proofs.Piet.Footing`: the pointer never loses the program

A machine looks things up as it goes: the block of its pointer, the
exits of that block, the block an exit leads to, the colors of codels
on a slide, and the block on which a slide ends. Its definitions are
total: a lookup that finds nothing blocks the machine, turns the
pointer, or leaves it where it is. This module shows that no run of a
compiled program comes to that.

* `Machine.strictStep` is a step for which a lookup that finds nothing
  is a fault: it reads the arrays of the program without asking first
  whether the place exists, and it has no answer where a codel has no
  block or a slide has used up its strides.
* `Grounded` is the invariant: the pointer names the block of its
  codel, it stands on color once a step was made, and the last
  instruction was not `nop`. A step keeps it, and makes the same move
  when it is made strictly (`Grounded.step`); `Grounded.after` carries
  it through a run.
* `footing_after_commands` says what follows for every run.

That no move executes `nop` rests on two facts far from the machine. A
region holds all codels of its color that touch it, and it is left
through the codel that lies furthest that way; so the codel beyond is
not in the region, and has another color (`Grid.Leads.get?_ne`).
-/

set_option autoImplicit false

namespace EsoHost.Piet

/-! ### Strict lookups -/

/-- The value of a codel, straight out of the array. -/
def Raster.fetch? {α : Type} (r : Raster α) (c : Codel) : Option α := r.cells[r.index c]?

/-- Inside the raster the array has the value. -/
theorem Raster.fetch?_of_contains {α : Type} {r : Raster α} {c : Codel} (h : r.Contains c) :
    r.fetch? c = r.get? c := by
  rw [get?, dif_pos h]
  exact Array.getElem?_eq_getElem (index_lt h)

/-- A stride. The color ahead has to be there. -/
def Stance.strictStride (g : Grid) (s : Stance) : Option Stride :=
  match g.step s.codel s.heading.dp with
  | none => some (.on { s with heading := s.heading.bounced })
  | some ahead => do
    match ← g.fetch? ahead with
    | .black => return .on { s with heading := s.heading.bounced }
    | .white => return .on { s with codel := ahead }
    | .chromatic .. => return .landed { s with codel := ahead }

/-- Walks on from `s`. The walk has to end before its strides do. -/
def strictSlideFrom (g : Grid) : (strides : Nat) → (seen : List Stance) → Stance → Option Landing
  | 0, _, _ => none
  | strides + 1, seen, s =>
    if s ∈ seen then some (.trapped s)
    else do
      match ← s.strictStride g with
      | .landed s' => return .colored s'
      | .on s' => strictSlideFrom g strides (s :: seen) s'

/-- Walks through white from `s`. -/
def strictSlide (g : Grid) (s : Stance) : Option Landing :=
  strictSlideFrom g (8 * g.size + 1) [] s

/-- The first way out of block `id`. Its exit table has to be there. -/
def Program.strictExit? (p : Program) (id : Nat) (h : Heading) :
    Option (Option (Heading × Transition)) := do
  let table ← p.exits[id]?
  return h.attempts.findSome? fun h' => (table.get h').map fun t => (h', t)

/-- The move from a pointer. Its block has to be there, and so has the
block to which the first way out leads. -/
def Program.strictMove (p : Program) (q : Pointer) : Option Move := do
  let block ← p.blocks[q.block]?
  if block.color = .white then
    return .slide q.toStance
  else
    match ← p.strictExit? q.block q.heading with
    | none => return .blocked
    | some (heading, t) =>
      let target ← p.blocks[t.target]?
      match Instruction.between? block.color target.color with
      | none => return .slide ⟨t.entry, heading⟩
      | some instruction =>
        return .perform instruction block.size ⟨⟨t.entry, heading⟩, t.target⟩

namespace Machine

/-- The machine after a slide. The codel on which it ends has to have a
block. -/
def strictLand (m : Machine) (l : Landing) : Option Machine := do
  let block ← (← m.program.membership.fetch? l.stance.codel)
  match l with
  | .colored s =>
    return { m with pointer := ⟨s, block⟩, status := .running, lastInstruction := none }
  | .trapped s =>
    return { m with pointer := ⟨s, block⟩, status := .halted .blocked, lastInstruction := none }

/-- One step. It has no value if a lookup finds nothing. -/
def strictStep (m : Machine) (t : Transcript) : Option (Machine × Transcript) :=
  if m.status.isHalted then some (m, t)
  else do
    let m := { m with steps := m.steps + 1 }
    match ← m.program.strictMove m.pointer with
    | .slide start =>
      let landing ← strictSlide m.program.grid start
      let m ← m.strictLand landing
      return (m, t)
    | .perform instruction value arrival => return m.perform t instruction value arrival
    | .blocked => return ({ m with status := .halted .blocked }, t)

end Machine

/-! ### Slides -/

section Slide

variable {g : Grid} {s : Stance}

/-- A stride looks at a codel only after it has checked that the codel
lies inside. -/
theorem Stance.strictStride_eq (g : Grid) (s : Stance) :
    s.strictStride g = some (s.stride g) := by
  unfold strictStride stride
  cases hstep : g.step s.codel s.heading.dp with
  | none => rfl
  | some ahead =>
    have hin : g.Contains ahead := (Raster.step_eq_some_iff.mp hstep).2
    obtain ⟨color, hcolor⟩ := Option.isSome_iff_exists.mp (Raster.isSome_get?.mpr hin)
    simp only [Raster.fetch?_of_contains hin, hcolor]
    cases color <;> rfl

/-- The walk ends before its strides do: its stances lie inside the
grid, and there are eight of them for each codel. -/
theorem strictSlideFrom_eq {strides n : Nat} {seen : List Stance} (h : s.Walked g n seen)
    (hspare : 8 * g.size < strides + n) :
    strictSlideFrom g strides seen (s.walk g n)
      = some (slideFrom g strides seen (s.walk g n)) := by
  induction strides generalizing n seen with
  | zero =>
    -- No strides are left, but so many different stances do not fit on the
    -- grid.
    have := h.le_size
    omega
  | succ strides ih =>
    unfold strictSlideFrom slideFrom
    split
    · rfl
    · rename_i hnew
      rw [Stance.strictStride_eq]
      rcases Stance.stride_cases (h.white n (Nat.le_refl n)) with ⟨hstride, hwhite⟩ | ⟨hstride, -⟩
      · rw [← Stance.walk_succ] at hstride hwhite
        rw [hstride]
        exact ih (h.on hnew hwhite) (by omega)
      · rw [hstride]
        rfl

/-- A slide that starts on white has enough strides. -/
theorem strictSlide_eq (h : g.IsWhite s.codel) : strictSlide g s = some (slide g s) :=
  strictSlideFrom_eq (Stance.walked_nil h) (by omega)

end Slide

/-! ### Moves -/

section Move

variable {g : Grid}

/-- An exit leads to the block of the codel on which it ends. -/
theorem Program.blockAt?_of_transition? {i : Nat} {h : Heading} {t : Transition}
    (ht : (compile g).transition? i h = some t) :
    (compile g).blockAt? t.entry = some t.target := by
  obtain ⟨table, htable, hentry⟩ := Option.bind_eq_some_iff.mp ht
  have htable : ((Partition.ofGrid g).blocks.map
      (exitTable g (Partition.ofGrid g).membership))[i]? = some table := htable
  rw [Array.getElem?_map, Option.map_eq_some_iff] at htable
  obtain ⟨b, -, rfl⟩ := htable
  unfold exitTable at hentry
  split at hentry
  · exact absurd hentry (by simp)
  · rw [ExitTable.get_ofFn] at hentry
    exact (transition?_eq_some_iff.mp hentry).2.2.2

/-- So does the first way out that a heading finds. -/
theorem Program.blockAt?_of_exit? {i : Nat} {h h' : Heading} {t : Transition}
    (hexit : (compile g).exit? i h = some (h', t)) :
    (compile g).blockAt? t.entry = some t.target := by
  obtain ⟨heading, -, hfound⟩ := List.exists_of_findSome?_eq_some hexit
  obtain ⟨t', ht', hpair⟩ := Option.map_eq_some_iff.mp hfound
  cases hpair
  exact blockAt?_of_transition? ht'

/-- Every block has an exit table. -/
theorem Program.strictExit?_eq {i : Nat} {b : Block} (hb : (compile g).blocks[i]? = some b)
    (h : Heading) : (compile g).strictExit? i h = some ((compile g).exit? i h) := by
  have htable : (compile g).exits[i]? = some (exitTable g (Partition.ofGrid g).membership b) := by
    show ((Partition.ofGrid g).blocks.map (exitTable g (Partition.ofGrid g).membership))[i]? = _
    rw [Array.getElem?_map, show (Partition.ofGrid g).blocks[i]? = some b from hb]
    rfl
  simp only [strictExit?, exit?, transition?, htable]
  rfl

/-- What a move promises: a slide starts on white, and an instruction is
executed between two colored codels, the second of which belongs to
the block that the move names. -/
def Move.Sure (g : Grid) (q : Pointer) : Move → Prop
  | .slide start => g.IsWhite start.codel
  | .perform _ _ arrival =>
    g.IsColored q.codel ∧ g.IsColored arrival.codel ∧
      (Program.compile g).blockAt? arrival.codel = some arrival.block
  | .blocked => g.IsColored q.codel

/-- No instruction leads onto white. -/
theorem Grid.Open.isColored_of_between? {c : Codel} {here there : Color}
    {instruction : Instruction} (h : g.Open c) (hcolor : g.get? c = some there)
    (hbetween : Instruction.between? here there = some instruction) : g.IsColored c := by
  rcases h.white_or_colored with hwhite | hcolored
  · cases Option.some.inj (hcolor.symm.trans hwhite)
    exact absurd hbetween Walker.not_between?_white
  · exact hcolored

/-- The move from a pointer that names the block of its codel finds
everything it looks up, and keeps its promise. -/
theorem Program.strictMove_eq {q : Pointer}
    (hq : (compile g).blockAt? q.codel = some q.block) :
    (compile g).strictMove q = some ((compile g).move q) ∧ ((compile g).move q).Sure g q := by
  obtain ⟨b, hb, hregion⟩ := Partition.exists_block_of_blockAt? hq
  have hb : (compile g).blocks[q.block]? = some b := hb
  have hopen : g.Open q.codel := Partition.exists_blockAt?_iff.mp ⟨q.block, hq⟩
  -- The cases are those of `move`. In each of them the lookups are
  -- settled first, so that both functions reduce to the same answer.
  by_cases hwhite : b.color = .white
  · have hmove : (compile g).move q = .slide q.toStance := by simp [move, hb, hwhite]
    refine ⟨by simp [strictMove, hb, hwhite, hmove], ?_⟩
    rw [hmove]
    show g.get? q.codel = some .white
    rw [hregion.color_eq, hwhite]
  · have hcolored : g.IsColored q.codel := hregion.isColored hopen hwhite
    have hstrict := strictExit?_eq hb q.heading
    cases hexit : (compile g).exit? q.block q.heading with
    | none =>
      have hmove : (compile g).move q = .blocked := by simp [move, hb, hwhite, hexit]
      rw [hexit] at hstrict
      refine ⟨by simp [strictMove, hb, hwhite, hstrict, hmove], ?_⟩
      rw [hmove]
      exact hcolored
    | some way =>
      obtain ⟨heading, t⟩ := way
      rw [hexit] at hstrict
      have htarget := blockAt?_of_exit? hexit
      have hentry : g.Open t.entry := Partition.exists_blockAt?_iff.mp ⟨t.target, htarget⟩
      obtain ⟨b', hb', hregion'⟩ := Partition.exists_block_of_blockAt? htarget
      have hb' : (compile g).blocks[t.target]? = some b' := hb'
      cases hbetween : Instruction.between? b.color b'.color with
      | none =>
        have hmove : (compile g).move q = .slide ⟨t.entry, heading⟩ := by
          simp [move, hb, hwhite, hexit, hb', hbetween]
        refine ⟨by simp [strictMove, hb, hwhite, hstrict, hb', hbetween, hmove], ?_⟩
        rw [hmove]
        exact hentry.isWhite_of_between? hcolored hregion.color_eq hregion'.color_eq hbetween
      | some instruction =>
        have hmove : (compile g).move q
            = .perform instruction b.size ⟨⟨t.entry, heading⟩, t.target⟩ := by
          simp [move, hb, hwhite, hexit, hb', hbetween]
        refine ⟨by simp [strictMove, hb, hwhite, hstrict, hb', hbetween, hmove], ?_⟩
        rw [hmove]
        exact ⟨hcolored, hentry.isColored_of_between? hregion'.color_eq hbetween, htarget⟩

/-! ### No move executes `nop` -/

/-- The next codel in a direction lies one further that way. -/
theorem Codel.distance_towards? {c d : Codel} {dir : Direction} (h : c.towards? dir = some d) :
    d.distance dir = c.distance dir + 1 := by
  obtain ⟨x, y⟩ := c
  cases dir with
  | right => cases h; rfl
  | down => cases h; rfl
  | left =>
    cases x with
    | zero => exact absurd h (by simp [towards?])
    | succ x =>
      cases h
      show -(x : Int) = -((x + 1 : Nat) : Int) + 1
      omega
  | up =>
    cases y with
    | zero => exact absurd h (by simp [towards?])
    | succ y =>
      cases h
      show -(y : Int) = -((y + 1 : Nat) : Int) + 1
      omega

/-- A way out of a region changes the color. -/
theorem Grid.Leads.get?_ne {c entry : Codel} {h : Heading} (hc : g.Open c)
    (hleads : g.Leads c h entry) : g.get? entry ≠ g.get? c := by
  obtain ⟨exit, hexit, hnext, -⟩ := hleads
  intro hsame
  obtain ⟨color, hcolor, -⟩ := hc
  have hjoined : g.Joined c exit := hexit.mem
  -- A codel of the same color beyond the exit would touch it, and lie
  -- in the region, further out than the exit does.
  have htouch : g.Touches exit entry :=
    ⟨⟨_, hnext⟩, color, hjoined.get?_eq ▸ hcolor, hsame.trans hcolor⟩
  have hfar := hexit.furthest entry (hjoined.trans htouch.joined)
  have hone := Codel.distance_towards? hnext
  omega

/-- Only between equal colors there is nothing to do. -/
theorem Instruction.eq_of_between?_nop {a b : Color} (h : between? a b = some .nop) : a = b := by
  cases a with
  | white => exact absurd h (by simp [between?, Color.stepsTo?])
  | black => exact absurd h (by simp [between?, Color.stepsTo?])
  | chromatic hue lightness =>
    cases b with
    | white => exact absurd h (by simp [between?, Color.stepsTo?])
    | black => exact absurd h (by simp [between?, Color.stepsTo?])
    | chromatic hue' lightness' =>
      -- Eighteen colors on each side: the table of instructions decides.
      revert h
      cases hue <;> cases lightness <;> cases hue' <;> cases lightness' <;> decide

/-- No move of a walker executes `nop`. -/
theorem Walker.Goes.ne_nop {s : Stance} {instruction : Instruction} {value : Nat}
    {arrival : Stance} (h : Walker.Goes g s (.perform instruction value arrival)) :
    instruction ≠ .nop := by
  cases h with
  | perform n entry here there _ hleaves hhere hthere hbetween =>
    rintro rfl
    have hopen : g.Open s.codel := (Walker.isColored_of_between? hhere hbetween).open
    apply hleaves.leads.get?_ne hopen
    rw [hthere, hhere, Instruction.eq_of_between?_nop hbetween]

end Move

/-! ### Runs -/

/-- The invariant of a machine that has had the commands in `past`. -/
structure Grounded (g : Grid) (past : List Command) (m : Machine) : Prop where
  program_eq : m.program = Program.compile g
  block_eq : (Program.compile g).blockAt? m.pointer.codel = some m.pointer.block
  colored : .step ∈ past → ¬ m.status.isHalted → g.IsColored m.pointer.codel
  ne_nop : g.Addressable → m.lastInstruction ≠ some .nop

section Run

variable {g : Grid} {past : List Command} {m : Machine} {t : Transcript}

/-- A program that starts on black has no block to start on. -/
theorem Machine.load_of_black (policy : ExhaustedInput) (h : g.get? .origin = some .black) :
    Machine.load (.compile g) policy
      = { program := .compile g, policy := policy, pointer := ⟨⟨.origin, ⟨.right, .left⟩⟩, 0⟩
          stack := .empty, status := .halted .blocked, lastInstruction := none, steps := 0 } :=
  Machine.load_of_blockAt?_none policy (Partition.blockAt?_eq_none_iff.mpr (Or.inr h))

/-- Every grid has an origin, so it can be entered unless it is black.
-/
theorem Grid.open_origin (g : Grid) (h : g.get? .origin ≠ some .black) : g.Open .origin := by
  have hin : g.Contains .origin := ⟨g.width_pos, g.height_pos⟩
  obtain ⟨color, hcolor⟩ := Option.isSome_iff_exists.mp (Raster.isSome_get?.mpr hin)
  refine ⟨color, hcolor, ?_⟩
  rintro rfl
  exact h hcolor

/-- A machine that starts on a codel that is not black. -/
theorem grounded_load (policy : ExhaustedInput) (h : g.get? .origin ≠ some .black) :
    Grounded g [] (.load (.compile g) policy) := by
  obtain ⟨block, hblock⟩ := Partition.exists_blockAt?_iff.mpr (g.open_origin h)
  rw [Machine.load_of_blockAt? policy hblock]
  refine ⟨rfl, hblock, ?_, ?_⟩
  · intro hstep
    exact absurd hstep List.not_mem_nil
  · intro _
    simp

/-- A slide that ends on an open codel. It ends on color, or the machine
halts. -/
theorem Grounded.land (h : Grounded g past m) {start : Stance} {l : Landing}
    (hslides : start.Slides g l) (past' : List Command) :
    m.strictLand l = some (m.land l) ∧ Grounded g past' (m.land l) := by
  obtain ⟨block, hblock, hmove⟩ := Machine.exists_moveTo h.program_eq hslides.open
  have hcell : (Partition.ofGrid g).membership.get? l.stance.codel = some (some block) :=
    Membership.blockAt?_eq_some_iff.mp hblock
  -- A slide ends on an open codel, and every open codel has a block.
  have hfetch : m.program.membership.fetch? l.stance.codel = some (some block) := by
    rw [h.program_eq]
    exact (Raster.fetch?_of_contains (Raster.contains_of_get? hcell)).trans hcell
  cases hslides with
  | colored n _ hcolor =>
    simp only [Landing.stance] at hmove
    simp only [Machine.land, hmove]
    refine ⟨by simp [Machine.strictLand, hfetch], h.program_eq, hblock, ?_, fun _ => by simp⟩
    intro _ _
    exact hcolor
  | trapped n _ _ _ =>
    simp only [Landing.stance] at hmove
    simp only [Machine.land, hmove]
    refine ⟨by simp [Machine.strictLand, hfetch], h.program_eq, hblock, ?_, fun _ => by simp⟩
    intro _ hlive
    exact absurd rfl hlive

/-- An instruction on the way from color to color. A read that waits
leaves the pointer on the color where it stands. -/
theorem Grounded.perform (h : Grounded g past m) {instruction : Instruction} {value : Nat}
    {arrival : Pointer} (hsure : (Move.perform instruction value arrival).Sure g m.pointer)
    (hnop : g.Addressable → instruction ≠ .nop) (past' : List Command) :
    Grounded g past' (m.perform t instruction value arrival).1 := by
  obtain ⟨hhere, hthere, hblock⟩ := hsure
  unfold Machine.perform
  generalize execute m.policy value ⟨m.stack, arrival.heading, t⟩ instruction = result
  obtain ⟨verdict, f⟩ := result
  cases verdict with
  | done =>
    refine ⟨h.program_eq, hblock, fun _ _ => hthere, ?_⟩
    intro hg heq
    exact hnop hg (Option.some.inj heq)
  | wait => exact ⟨h.program_eq, h.block_eq, fun _ _ => hhere, h.ne_nop⟩
  | halt reason =>
    exact ⟨h.program_eq, h.block_eq, fun _ hlive => absurd rfl hlive, h.ne_nop⟩

/-- Counting a step moves nothing. -/
theorem Grounded.count (h : Grounded g past m) (n : Nat) :
    Grounded g past { m with steps := n } :=
  ⟨h.program_eq, h.block_eq, h.colored, h.ne_nop⟩

/-- One step finds everything it looks up, and keeps the invariant. -/
theorem Grounded.step (h : Grounded g past m) :
    m.strictStep t = some (m.step t) ∧ Grounded g (past ++ [.step]) (m.step t).1 := by
  by_cases hhalted : m.status.isHalted
  · rw [Machine.step_of_halted hhalted]
    refine ⟨by simp [Machine.strictStep, hhalted], h.program_eq, h.block_eq, ?_, h.ne_nop⟩
    intro _ hlive
    exact absurd hhalted hlive
  · have hcount := h.count (m.steps + 1)
    have hgrid : m.program.grid = g := by rw [h.program_eq]; rfl
    obtain ⟨hstrict, hsure⟩ := Program.strictMove_eq h.block_eq
    rw [← h.program_eq] at hstrict hsure
    cases hmove : m.program.move m.pointer with
    | slide start =>
      rw [hmove] at hstrict hsure
      have hslides := Stance.slides_slide hsure
      obtain ⟨hland, hgrounded⟩ := hcount.land hslides (past ++ [.step])
      rw [Machine.step_of_slide hhalted hmove, hgrid]
      refine ⟨?_, hgrounded⟩
      simp [Machine.strictStep, hhalted, hstrict, hgrid, strictSlide_eq hsure, hland]
    | perform instruction value arrival =>
      rw [hmove] at hstrict hsure
      rw [Machine.step_of_perform hhalted hmove]
      refine ⟨by simp [Machine.strictStep, hhalted, hstrict], hcount.perform hsure ?_ _⟩
      intro hg
      -- That the move is none of `nop` is seen on the grid, not in the exit
      -- tables.
      have hgoes := (goes_move hg h.block_eq).1
      rw [← h.program_eq, hmove] at hgoes
      exact hgoes.ne_nop
    | blocked =>
      rw [hmove] at hstrict
      rw [Machine.step_of_blocked hhalted hmove]
      refine ⟨by simp [Machine.strictStep, hhalted, hstrict], h.program_eq, h.block_eq, ?_,
        h.ne_nop⟩
      intro _ hlive
      exact absurd rfl hlive

/-- A stop moves nothing. -/
theorem Grounded.stop (h : Grounded g past m) : Grounded g (past ++ [.stop]) m.stop := by
  refine ⟨h.program_eq, h.block_eq, ?_, h.ne_nop⟩
  intro _ hlive
  exact absurd (Status.isHalted_stop m.status) hlive

/-- An edit of the transcript is not a step. -/
theorem Grounded.offer (h : Grounded g past m) (text : String) :
    Grounded g (past ++ [.offer text]) m := by
  refine ⟨h.program_eq, h.block_eq, ?_, h.ne_nop⟩
  intro hstep
  exact h.colored (by simpa using hstep)

/-- Any sequence of commands. -/
theorem Grounded.after (h : Grounded g past m) (commands : List Command) :
    Grounded g (past ++ commands) (Machine.afterCommands commands (m, t)).1 := by
  induction commands generalizing past m t with
  | nil => simpa [Machine.afterCommands] using h
  | cons command commands ih =>
    rw [← List.singleton_append, ← List.append_assoc]
    cases command with
    | step => exact ih h.step.2
    | stop => exact ih h.stop
    | offer text => exact ih (h.offer text)

/-- No command changes a halted machine. -/
theorem Machine.afterCommands_of_halted (h : m.status.isHalted) (commands : List Command) :
    (Machine.afterCommands commands (m, t)).1 = m := by
  obtain ⟨reason, hreason⟩ := Status.exists_halted h
  -- A stop keeps the reason of a machine that has halted, so that it
  -- changes nothing at all.
  have hstop : m.stop = m := by
    unfold Machine.stop
    rw [hreason]
    show { m with status := .halted reason } = m
    rw [← hreason]
  induction commands generalizing t with
  | nil => rfl
  | cons command commands ih =>
    cases command with
    | step =>
      show (Machine.afterCommands commands (m.step t)).1 = m
      rw [Machine.step_of_halted h]
      exact ih
    | stop =>
      show (Machine.afterCommands commands (m.stop, t)).1 = m
      rw [hstop]
      exact ih
    | offer text => exact ih

end Run

/-- How a machine that was loaded with the program of `g` stands after
some commands. -/
structure Footing (g : Grid) (policy : ExhaustedInput) (commands : List Command) (m : Machine)
    (t : Transcript) : Prop where
  /-- On a black codel there is no start, and nothing changes that. -/
  black : g.get? .origin = some .black →
    m = .load (.compile g) policy ∧ m.status = .halted .blocked
  /-- From any other start, the pointer stays on codels that can be
  entered, and names the block of its codel. -/
  placed : g.get? .origin ≠ some .black →
    g.Contains m.pointer.codel ∧ g.get? m.pointer.codel ≠ some .black ∧
      m.program.blockAt? m.pointer.codel = some m.pointer.block
  /-- Once a step was made, a machine that goes on stands on a colored
  block. -/
  colored : .step ∈ commands → ¬ m.status.isHalted →
    ∃ b hue lightness, m.program.blocks[m.pointer.block]? = some b ∧
      b.color = .chromatic hue lightness
  /-- The next step finds everything it looks up. -/
  strictStep_eq : m.strictStep t = some (m.step t)
  /-- The last instruction was not `nop`. Exits are chosen by
  coordinates in words, so these have to fit. -/
  ne_nop : g.Addressable → m.lastInstruction ≠ some .nop

section Footing

variable {g : Grid} {policy : ExhaustedInput} {commands : List Command} {m : Machine}
  {t : Transcript}

/-- A machine that has no start stays where it was loaded. -/
theorem footing_of_black (h : g.get? .origin = some .black) :
    Footing g policy commands (.load (.compile g) policy) t := by
  have hload := Machine.load_of_black policy h
  have hstatus : (Machine.load (.compile g) policy).status = .halted .blocked := by rw [hload]
  have hhalted : (Machine.load (.compile g) policy).status.isHalted := by rw [hstatus]; rfl
  refine ⟨fun _ => ⟨rfl, hstatus⟩, fun hne => absurd h hne, ?_, ?_, ?_⟩
  · intro _ hlive
    exact absurd hhalted hlive
  · rw [Machine.step_of_halted hhalted]
    simp only [Machine.strictStep, if_pos hhalted]
  · intro _
    rw [hload]
    simp

/-- The invariant says how the machine stands. -/
theorem Grounded.footing (h : Grounded g commands m) (hstart : g.get? .origin ≠ some .black) :
    Footing g policy commands m t := by
  obtain ⟨color, hcolor, hne⟩ := Partition.exists_blockAt?_iff.mp ⟨_, h.block_eq⟩
  refine ⟨fun hblack => absurd hblack hstart, fun _ => ?_, ?_, h.step.1, h.ne_nop⟩
  · refine ⟨Raster.contains_of_get? hcolor, ?_, h.program_eq ▸ h.block_eq⟩
    intro hblack
    exact hne (Option.some.inj (hcolor.symm.trans hblack))
  · intro hstep hlive
    obtain ⟨hue, lightness, hchromatic⟩ := h.colored hstep hlive
    obtain ⟨b, hb, hregion⟩ := Partition.exists_block_of_blockAt? h.block_eq
    refine ⟨b, hue, lightness, h.program_eq ▸ hb, ?_⟩
    exact Option.some.inj (hregion.color_eq.symm.trans hchromatic)

end Footing

/-- A compiled program never loses its footing, whatever its host does
and in whatever order. -/
theorem footing_after_commands (g : Grid) (policy : ExhaustedInput) (t : Transcript)
    (commands : List Command) :
    Footing g policy commands
      (Machine.afterCommands commands (.load (.compile g) policy, t)).1
      (Machine.afterCommands commands (.load (.compile g) policy, t)).2 := by
  by_cases hstart : g.get? .origin = some .black
  · have hhalted : (Machine.load (.compile g) policy).status.isHalted := by
      rw [Machine.load_of_black policy hstart]
      rfl
    rw [Machine.afterCommands_of_halted hhalted]
    exact footing_of_black hstart
  · exact ((grounded_load policy hstart).after commands).footing hstart

/-- A step that has to wait for a number, the number, the step again,
and a stop. -/
theorem footing_in_crossing :
    crossing.Addressable ∧ crossing.get? .origin ≠ some .black ∧
    Footing crossing .skip [.step, .offer "### Running...\n\n7\n", .step, .stop]
      (Machine.afterCommands [.step, .offer "### Running...\n\n7\n", .step, .stop]
        (.load (.compile crossing) .skip, .fresh .interactive)).1
      (Machine.afterCommands [.step, .offer "### Running...\n\n7\n", .step, .stop]
        (.load (.compile crossing) .skip, .fresh .interactive)).2 :=
  ⟨by decide, by decide, footing_after_commands crossing .skip (.fresh .interactive) _⟩

end EsoHost.Piet
