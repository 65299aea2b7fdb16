import EsoHost.Proofs.Piet.Footing

/-!
# `EsoHost.Proofs.Piet.MissingOperands`: below the bottom lie zeros

An instruction that finds too few values on the stack takes zeros in
their place. This is more than a default for an empty stack: a machine
cannot tell zeros at the bottom of its stack from values that are not
there, now or later. It runs as if the stack went down forever.

* `Stack.peek` reads that endless stack. Two stacks that differ only in
  the zeros at the bottom are those that no `peek` tells apart
  (`Stack.sameAboveZeros_iff`).
* Every operation but a roll keeps two such stacks alike, and takes the
  same operands from both (`Stack.SameAboveZeros.combine` and its
  neighbours). So does every instruction but `roll`
  (`Frame.Alike.execute`).
* `Machine.step_withStack` and `SameButZeros.after` lift this to a step
  and to a run; `missing_operands_are_zeros` says what a host sees of it.

A roll counts the values, and does nothing if there are too few. It is
the one instruction for which a zero is not the same as nothing.
-/

set_option autoImplicit false

namespace EsoHost.Piet

/-! ### Stacks -/

namespace Stack

/-- The value at a depth. Below the bottom lie zeros. -/
def peek (s : Stack) (depth : Nat) : Int64 := s.values.getD depth 0

/-- The values from the bottom up, without the zeros at the bottom. -/
def aboveZeros (s : Stack) : List Int64 := s.bottomUp.dropWhile (· = 0)

/-- The two stacks become equal when all zeros at the bottom are
dropped. -/
def SameAboveZeros (s s' : Stack) : Prop := s.aboveZeros = s'.aboveZeros

instance (s s' : Stack) : Decidable (s.SameAboveZeros s') :=
  inferInstanceAs (Decidable (s.aboveZeros = s'.aboveZeros))

/-- The stack, put on `n` zeros. -/
def onZeros (s : Stack) (n : Nat) : Stack := ⟨s.values ++ List.replicate n 0⟩

/-- Zeros at the bottom are what lies there anyway. -/
theorem peek_onZeros (s : Stack) (n depth : Nat) : (s.onZeros n).peek depth = s.peek depth := by
  simp only [peek, onZeros, List.getD_eq_getElem?_getD]
  by_cases hdepth : depth < s.values.length
  · rw [List.getElem?_append_left hdepth]
  · rw [List.getElem?_append_right (by omega), List.getElem?_eq_none (l := s.values) (by omega),
      List.getElem?_replicate]
    split <;> rfl

/-- They are dropped again. -/
theorem aboveZeros_onZeros (s : Stack) (n : Nat) : (s.onZeros n).aboveZeros = s.aboveZeros := by
  have hbottom : (s.onZeros n).bottomUp = List.replicate n 0 ++ s.bottomUp := by
    simp [onZeros, bottomUp]
  rw [aboveZeros, hbottom, List.dropWhile_append_of_pos]
  · rfl
  · intro v hv
    simp [List.eq_of_mem_replicate hv]

/-- Every stack is what it has above the zeros, put on zeros. -/
theorem exists_eq_onZeros (s : Stack) : ∃ n, (ofBottomUp s.aboveZeros).onZeros n = s := by
  have hzeros : ∀ v ∈ s.bottomUp.takeWhile (· = 0), v = 0 := by
    intro v hv
    simpa using List.mem_takeWhile_imp hv
  have hbottom : List.replicate (s.bottomUp.takeWhile (· = 0)).length 0 ++ s.aboveZeros
      = s.bottomUp := by
    rw [← List.eq_replicate_of_mem hzeros]
    exact List.takeWhile_append_dropWhile
  refine ⟨(s.bottomUp.takeWhile (· = 0)).length, congrArg mk ?_⟩
  rw [← List.reverse_inj]
  simp only [ofBottomUp, List.reverse_append, List.reverse_replicate, List.reverse_reverse]
  exact hbottom

/-- Dropping zeros at the bottom changes no depth. -/
theorem peek_aboveZeros (s : Stack) (depth : Nat) :
    (ofBottomUp s.aboveZeros).peek depth = s.peek depth := by
  obtain ⟨n, hn⟩ := s.exists_eq_onZeros
  rw [← peek_onZeros _ n, hn]

/-- Of two stacks that no `peek` tells apart, the longer one is the
other one on zeros. -/
theorem eq_onZeros_of_peek {s s' : Stack} (hsize : s.size ≤ s'.size)
    (h : ∀ depth, s.peek depth = s'.peek depth) : s' = s.onZeros (s'.size - s.size) := by
  -- Two lists of one length that agree at every depth are equal.
  have hlength : s'.values.length = (s.onZeros (s'.size - s.size)).values.length := by
    simp only [onZeros, List.length_append, List.length_replicate, size] at hsize ⊢
    omega
  have hvalues : s'.values = (s.onZeros (s'.size - s.size)).values := by
    refine List.ext_getElem hlength fun depth hdepth hdepth' => ?_
    have hpeek := (h depth).symm.trans (peek_onZeros s (s'.size - s.size) depth).symm
    rwa [peek, peek, List.getD_eq_getElem?_getD, List.getD_eq_getElem?_getD,
      List.getElem?_eq_getElem hdepth, List.getElem?_eq_getElem hdepth'] at hpeek
  exact congrArg mk hvalues

/-- To be the same above the zeros is to be the same endless stack. -/
theorem sameAboveZeros_iff {s s' : Stack} :
    s.SameAboveZeros s' ↔ ∀ depth, s.peek depth = s'.peek depth := by
  constructor
  · intro h depth
    rw [← peek_aboveZeros s, ← peek_aboveZeros s', show s.aboveZeros = s'.aboveZeros from h]
  · intro h
    -- The shorter stack lacks zeros at the bottom only.
    rcases Nat.le_total s.size s'.size with hsize | hsize
    · rw [eq_onZeros_of_peek hsize h]
      exact (aboveZeros_onZeros _ _).symm
    · rw [eq_onZeros_of_peek hsize fun depth => (h depth).symm]
      exact aboveZeros_onZeros _ _

/-! The operations on the endless stack. -/

/-- Taking the top value gives what lies there. -/
theorem pop_fst (s : Stack) : s.pop.1 = s.peek 0 := by
  obtain ⟨_ | ⟨v, vs⟩⟩ := s <;> rfl

/-- It lifts all that is below. -/
theorem peek_pop_snd (s : Stack) (depth : Nat) : s.pop.2.peek depth = s.peek (depth + 1) := by
  obtain ⟨_ | ⟨v, vs⟩⟩ := s <;> rfl

/-- A copy of the value at the top, also if that is a missing one. -/
theorem peek_duplicate (s : Stack) (depth : Nat) :
    s.duplicate.peek depth = (s.push (s.peek 0)).peek depth := by
  obtain ⟨_ | ⟨v, vs⟩⟩ := s
  · cases depth <;> rfl
  · rfl

namespace SameAboveZeros

variable {s s' : Stack}

/-- Both stacks stay the same when a value is pushed. -/
theorem push (h : s.SameAboveZeros s') (v : Int64) : (s.push v).SameAboveZeros (s'.push v) := by
  rw [sameAboveZeros_iff] at h ⊢
  intro depth
  cases depth with
  | zero => rfl
  | succ depth => exact h depth

/-- The same value lies on top of both. -/
theorem pop_fst_eq (h : s.SameAboveZeros s') : s'.pop.1 = s.pop.1 := by
  rw [pop_fst, pop_fst]
  exact (sameAboveZeros_iff.mp h 0).symm

/-- And the same is left below it. -/
theorem pop_snd (h : s.SameAboveZeros s') : s.pop.2.SameAboveZeros s'.pop.2 := by
  rw [sameAboveZeros_iff] at h ⊢
  intro depth
  rw [peek_pop_snd, peek_pop_snd, h]

/-- A copy of nothing is a copy of a zero. -/
theorem duplicate (h : s.SameAboveZeros s') : s.duplicate.SameAboveZeros s'.duplicate := by
  have hpush := sameAboveZeros_iff.mp (h.push (s.peek 0))
  rw [sameAboveZeros_iff]
  intro depth
  rw [peek_duplicate, peek_duplicate, ← sameAboveZeros_iff.mp h 0, hpush]

/-- An operation on two values takes the same two from both stacks. -/
theorem combine (h : s.SameAboveZeros s') (f : Int64 → Int64 → Option Int64) :
    (s.combine f).SameAboveZeros (s'.combine f) := by
  simp only [Stack.combine, h.pop_fst_eq, h.pop_snd.pop_fst_eq]
  split
  · exact h.pop_snd.pop_snd.push _
  · exact h.pop_snd.pop_snd

end SameAboveZeros

-- A roll of two values turns a value and the zero below it, but does
-- nothing to a value alone.
example :
    (Stack.mk [1]).SameAboveZeros ⟨[1, 0]⟩ ∧
      ¬ ((Stack.mk [1]).roll 2 1).SameAboveZeros ((Stack.mk [1, 0]).roll 2 1) := by
  decide

end Stack

/-! ### Instructions -/

/-- Two frames that differ only in the zeros at the bottom. -/
structure Frame.Alike (f f' : Frame) : Prop where
  stack : f.stack.SameAboveZeros f'.stack
  heading_eq : f'.heading = f.heading
  transcript_eq : f'.transcript = f.transcript

/-- Two instructions that end alike. -/
def EndAlike (r r' : Verdict × Frame) : Prop := r'.1 = r.1 ∧ r.2.Alike r'.2

namespace Frame.Alike

variable {f f' : Frame}

/-- An instruction that changes the stack only ends alike if the change
does. -/
theorem onStack (h : f.Alike f') {change : Stack → Stack}
    (hchange : (change f.stack).SameAboveZeros (change f'.stack)) :
    EndAlike (.done, f.onStack change) (.done, f'.onStack change) :=
  ⟨rfl, hchange, h.heading_eq, h.transcript_eq⟩

/-- A read that finds nothing ends alike under every policy. -/
theorem starve (h : f.Alike f') (policy : ExhaustedInput) :
    EndAlike (f.starve policy) (f'.starve policy) := by
  unfold Frame.starve
  rw [h.transcript_eq]
  split
  · exact ⟨rfl, h⟩
  · cases policy with
    | skip => exact ⟨rfl, h⟩
    | pushZero => exact h.onStack (h.stack.push 0)
    | halt => exact ⟨rfl, h⟩

/-- So does any other read. -/
theorem receive (h : f.Alike f') (policy : ExhaustedInput) (read : Reading Int64 × Transcript) :
    EndAlike (f.receive policy read) (f'.receive policy read) := by
  obtain ⟨reading, t⟩ := read
  have hread : Frame.Alike { f with transcript := t } { f' with transcript := t } :=
    ⟨h.stack, h.heading_eq, rfl⟩
  cases reading with
  | ready n => exact hread.onStack (h.stack.push n)
  | malformed => exact ⟨rfl, hread⟩
  | exhausted => exact hread.starve policy

/-- Every instruction but a roll ends alike. -/
theorem execute (h : f.Alike f') (policy : ExhaustedInput) (value : Nat)
    {instruction : Instruction} (hroll : instruction ≠ .roll) :
    EndAlike (Piet.execute policy value f instruction)
      (Piet.execute policy value f' instruction) := by
  -- What an instruction takes from one stack, it takes from the other.
  have hpop := h.stack.pop_fst_eq
  have hrest := h.stack.pop_snd
  cases instruction with
  | nop => exact ⟨rfl, h⟩
  | push => exact h.onStack (h.stack.push _)
  | pop => exact h.onStack hrest
  | add => exact h.onStack (h.stack.combine _)
  | subtract => exact h.onStack (h.stack.combine _)
  | multiply => exact h.onStack (h.stack.combine _)
  | divide => exact h.onStack (h.stack.combine _)
  | mod => exact h.onStack (h.stack.combine _)
  | not =>
    refine h.onStack ?_
    rw [hpop]
    exact hrest.push _
  | greater => exact h.onStack (h.stack.combine _)
  | pointer =>
    refine ⟨rfl, hrest, ?_, h.transcript_eq⟩
    simp only [Piet.execute, hpop, h.heading_eq]
  | switch =>
    refine ⟨rfl, hrest, ?_, h.transcript_eq⟩
    simp only [Piet.execute, hpop, h.heading_eq]
  | duplicate => exact h.onStack h.stack.duplicate
  | roll => exact absurd rfl hroll
  | inNumber =>
    simp only [Piet.execute, h.transcript_eq]
    exact h.receive policy _
  | inChar =>
    simp only [Piet.execute, h.transcript_eq]
    exact h.receive policy _
  | outNumber =>
    refine ⟨rfl, hrest, h.heading_eq, ?_⟩
    simp only [Piet.execute, hpop, h.transcript_eq]
  | outChar =>
    simp only [Piet.execute, hpop]
    cases Word.printable? f.stack.pop.1 with
    | some c =>
      refine ⟨rfl, hrest, h.heading_eq, ?_⟩
      simp only [h.transcript_eq]
    | none => exact ⟨rfl, hrest, h.heading_eq, h.transcript_eq⟩

end Frame.Alike

/-! ### Runs -/

/-- The two machines, with their transcripts, differ in nothing but the
zeros at the bottom of the stack. -/
structure SameButZeros (x x' : Machine × Transcript) : Prop where
  program_eq : x'.1.program = x.1.program
  policy_eq : x'.1.policy = x.1.policy
  pointer_eq : x'.1.pointer = x.1.pointer
  status_eq : x'.1.status = x.1.status
  lastInstruction_eq : x'.1.lastInstruction = x.1.lastInstruction
  steps_eq : x'.1.steps = x.1.steps
  transcript_eq : x'.2 = x.2
  stack : x.1.stack.SameAboveZeros x'.1.stack

/-- The next step executes a roll. -/
def Machine.Rolls (m : Machine) : Prop :=
  ¬ m.status.isHalted ∧
    ∃ value arrival, m.program.move m.pointer = .perform .roll value arrival

/-- No step among the commands executes a roll. -/
def NeverRolls : List Command → Machine × Transcript → Prop
  | [], _ => True
  | command :: commands, x =>
    (command = .step → ¬ x.1.Rolls) ∧ NeverRolls commands (command.apply x)

namespace Machine

/-- A machine on its way to another instruction executes no roll. -/
theorem not_rolls_of_move {m : Machine} {instruction : Instruction} {value : Nat}
    {arrival : Pointer} (hmove : m.program.move m.pointer = .perform instruction value arrival)
    (hroll : instruction ≠ .roll) : ¬ m.Rolls := by
  rintro ⟨-, value', arrival', hrolls⟩
  cases hmove.symm.trans hrolls
  exact hroll rfl

/-- The same machine on another stack. -/
def withStack (m : Machine) (s : Stack) : Machine := { m with stack := s }

variable {m : Machine} {s : Stack} {t : Transcript}

/-- A machine on a stack that is the same but for the zeros. -/
theorem sameButZeros_withStack (h : m.stack.SameAboveZeros s) :
    SameButZeros (m, t) (m.withStack s, t) :=
  ⟨rfl, rfl, rfl, rfl, rfl, rfl, rfl, h⟩

/-- Moving the pointer does not touch the stack. -/
theorem moveTo_withStack (m : Machine) (s : Stack) (stance : Stance) :
    (m.withStack s).moveTo stance = (m.moveTo stance).withStack s ∧
      (m.moveTo stance).stack = m.stack := by
  simp only [moveTo, withStack]
  cases m.program.blockAt? stance.codel <;> exact ⟨rfl, rfl⟩

/-- A slide does not touch the stack. -/
theorem land_withStack (h : m.stack.SameAboveZeros s) (l : Landing) :
    SameButZeros (m.land l, t) ((m.withStack s).land l, t) := by
  obtain ⟨hmove, hstack⟩ := m.moveTo_withStack s l.stance
  rw [← hstack] at h
  cases l with
  | colored stance =>
    simp only [Landing.stance] at hmove
    simp only [land, hmove]
    exact ⟨rfl, rfl, rfl, rfl, rfl, rfl, rfl, h⟩
  | trapped stance =>
    simp only [Landing.stance] at hmove
    simp only [land, hmove]
    exact ⟨rfl, rfl, rfl, rfl, rfl, rfl, rfl, h⟩

/-- An instruction ends alike on both machines, and they go on alike. -/
theorem perform_withStack (h : m.stack.SameAboveZeros s) {instruction : Instruction}
    (hroll : instruction ≠ .roll) (value : Nat) (arrival : Pointer) :
    SameButZeros (m.perform t instruction value arrival)
      ((m.withStack s).perform t instruction value arrival) := by
  have hframe : Frame.Alike ⟨m.stack, arrival.heading, t⟩ ⟨s, arrival.heading, t⟩ := ⟨h, rfl, rfl⟩
  have hend := hframe.execute m.policy value hroll
  simp only [perform, withStack]
  -- From here on it only matters that the two instructions end alike.
  revert hend
  generalize execute m.policy value ⟨m.stack, arrival.heading, t⟩ instruction = r
  generalize execute m.policy value ⟨s, arrival.heading, t⟩ instruction = r'
  obtain ⟨verdict, f⟩ := r
  obtain ⟨verdict', f'⟩ := r'
  rintro ⟨hverdict, (halike : f.Alike f')⟩
  obtain rfl : verdict' = verdict := hverdict
  cases verdict' with
  | done =>
    refine ⟨rfl, rfl, ?_, rfl, rfl, rfl, halike.transcript_eq, halike.stack⟩
    simp only [halike.heading_eq]
  | wait => exact ⟨rfl, rfl, rfl, rfl, rfl, rfl, halike.transcript_eq, halike.stack⟩
  | halt reason => exact ⟨rfl, rfl, rfl, rfl, rfl, rfl, halike.transcript_eq, halike.stack⟩

/-- One step. -/
theorem step_withStack (h : m.stack.SameAboveZeros s) (hroll : ¬ m.Rolls) :
    SameButZeros (m.step t) ((m.withStack s).step t) := by
  by_cases hhalted : m.status.isHalted
  · rw [step_of_halted hhalted, step_of_halted (m := m.withStack s) hhalted]
    exact sameButZeros_withStack h
  · -- The move depends on the pointer alone.
    cases hmove : m.program.move m.pointer with
    | slide start =>
      rw [step_of_slide hhalted hmove, step_of_slide (m := m.withStack s) hhalted hmove]
      exact land_withStack (m := { m with steps := m.steps + 1 }) h _
    | perform instruction value arrival =>
      rw [step_of_perform hhalted hmove, step_of_perform (m := m.withStack s) hhalted hmove]
      refine perform_withStack (m := { m with steps := m.steps + 1 }) h ?_ value arrival
      rintro rfl
      exact hroll ⟨hhalted, value, arrival, hmove⟩
    | blocked =>
      rw [step_of_blocked hhalted hmove, step_of_blocked (m := m.withStack s) hhalted hmove]
      exact ⟨rfl, rfl, rfl, rfl, rfl, rfl, rfl, h⟩

end Machine

namespace SameButZeros

variable {x x' : Machine × Transcript} {commands : List Command}

/-- Which machine has more zeros does not matter. -/
theorem symm (h : SameButZeros x x') : SameButZeros x' x :=
  ⟨h.program_eq.symm, h.policy_eq.symm, h.pointer_eq.symm, h.status_eq.symm,
    h.lastInstruction_eq.symm, h.steps_eq.symm, h.transcript_eq.symm, h.stack.symm⟩

/-- The second machine is the first one on another stack. -/
theorem eq_withStack (h : SameButZeros x x') : x' = (x.1.withStack x'.1.stack, x.2) := by
  obtain ⟨⟨_, _, _, _, _, _, _⟩, _⟩ := x
  obtain ⟨⟨_, _, _, _, _, _, _⟩, _⟩ := x'
  obtain ⟨rfl, rfl, rfl, rfl, rfl, rfl, rfl, _⟩ := h
  rfl

/-- Both come to a roll at once. -/
theorem rolls_iff (h : SameButZeros x x') : x'.1.Rolls ↔ x.1.Rolls := by
  rw [h.eq_withStack]
  rfl

/-- One command. -/
theorem apply (h : SameButZeros x x') {command : Command}
    (hroll : command = .step → ¬ x.1.Rolls) :
    SameButZeros (command.apply x) (command.apply x') := by
  rw [h.eq_withStack]
  cases command with
  | step => exact Machine.step_withStack h.stack (hroll rfl)
  | stop => exact ⟨rfl, rfl, rfl, rfl, rfl, rfl, rfl, h.stack⟩
  | offer text => exact Machine.sameButZeros_withStack h.stack

/-- Any number of commands. -/
theorem after (h : SameButZeros x x') (hroll : NeverRolls commands x) :
    SameButZeros (Machine.afterCommands commands x) (Machine.afterCommands commands x') := by
  induction commands generalizing x x' with
  | nil => exact h
  | cons command commands ih => exact ih (h.apply hroll.1) hroll.2

/-- A run that meets no roll does not meet one on the other stack. -/
theorem neverRolls (h : SameButZeros x x') (hroll : NeverRolls commands x) :
    NeverRolls commands x' := by
  induction commands generalizing x x' with
  | nil => trivial
  | cons command commands ih =>
    refine ⟨fun hstep => ?_, ih (h.apply hroll.1) hroll.2⟩
    rw [h.rolls_iff]
    exact hroll.1 hstep

end SameButZeros

/-- Missing operands are zeros. Take two machines on the same program
that differ only in the zeros at the bottom of their stacks, in any
state, and give both the same commands. They meet a roll in the same
step, if at all. Until then they go the same way, take the same input,
print the same and end alike, and their stacks go on to differ only in
the zeros at the bottom. -/
theorem missing_operands_are_zeros {x x' : Machine × Transcript} (h : SameButZeros x x')
    (commands : List Command) :
    (NeverRolls commands x ↔ NeverRolls commands x') ∧
      (NeverRolls commands x →
        SameButZeros (Machine.afterCommands commands x)
          (Machine.afterCommands commands x')) :=
  ⟨⟨h.neverRolls, h.symm.neverRolls⟩, h.after⟩

/-- Light red, yellow and dark red in a row: a run subtracts and prints
what is left. -/
def debt : Program :=
  .assemble
    { width := 3
      height := 1
      cells := #[.chromatic .red .light, .chromatic .yellow .normal, .chromatic .red .dark]
      size_cells := rfl
      width_pos := Nat.succ_pos 2
      height_pos := Nat.one_pos }
    #[⟨0, .chromatic .red .light, #[⟨0, 0⟩]⟩, ⟨1, .chromatic .yellow .normal, #[⟨1, 0⟩]⟩,
      ⟨2, .chromatic .red .dark, #[⟨2, 0⟩]⟩]
    { width := 3, height := 1, cells := #[some 0, some 1, some 2], size_cells := rfl }

/-- One machine has a five on its stack, the other a five on two zeros.
Both subtract the five from a zero. -/
theorem missing_operands_are_zeros_in_debt :
    let x (s : Stack) : Machine × Transcript :=
      ((Machine.load debt .skip).withStack s, .fresh .interactive)
    let commands : List Command := [.step, .step]
    SameButZeros (x ⟨[5]⟩) (x ⟨[5, 0, 0]⟩) ∧ NeverRolls commands (x ⟨[5]⟩) ∧
      NeverRolls commands (x ⟨[5, 0, 0]⟩) ∧
      SameButZeros (Machine.afterCommands commands (x ⟨[5]⟩))
        (Machine.afterCommands commands (x ⟨[5, 0, 0]⟩)) ∧
      (Machine.afterCommands commands (x ⟨[5, 0, 0]⟩)).2.contents
        = Transcript.runBanner ++ "-5" := by
  intro x commands
  have hsame : SameButZeros (x ⟨[5]⟩) (x ⟨[5, 0, 0]⟩) :=
    ⟨rfl, rfl, rfl, rfl, rfl, rfl, rfl, by decide⟩
  -- Both moves are known, so that no roll has to be looked for.
  have hsubtract : (x ⟨[5]⟩).1.program.move (x ⟨[5]⟩).1.pointer
      = .perform .subtract 1 ⟨⟨⟨1, 0⟩, ⟨.right, .left⟩⟩, 1⟩ := by
    decide +kernel
  have hprint : (Command.step.apply (x ⟨[5]⟩)).1.program.move
        (Command.step.apply (x ⟨[5]⟩)).1.pointer
      = .perform .outNumber 1 ⟨⟨⟨2, 0⟩, ⟨.right, .left⟩⟩, 2⟩ := by
    decide +kernel
  have hroll : NeverRolls commands (x ⟨[5]⟩) :=
    ⟨fun _ => Machine.not_rolls_of_move hsubtract (by decide),
      fun _ => Machine.not_rolls_of_move hprint (by decide), trivial⟩
  obtain ⟨hiff, hafter⟩ := missing_operands_are_zeros hsame commands
  exact ⟨hsame, hroll, hiff.mp hroll, hafter hroll, by decide +kernel⟩

end EsoHost.Piet
