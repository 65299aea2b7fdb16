import EsoHost.Proofs.Piet.Footing

/-!
# `EsoHost.Proofs.Piet.Lockstep`: programs that run alike

A machine asks three things of its program: the block of a codel, the
move from a pointer, and how a slide ends. It never looks at the colors
or the width of the grid itself. Two programs that give the same
answers (`Program.Alike`) therefore run in lockstep, however different
their grids are.

* `InStep` says what two machines share: everything but the program.
* `Alike.step`: a step of one machine is a step of the other.
* `Alike.inStep`: from the start on, two machines stay in step, whatever
  their hosts do.

A slide has to end alike only where a compiled program can begin one,
so the run of the first program is kept on its footing (`Grounded`) all
the way. A machine that starts on black has no footing, but it has
halted and makes no move.
-/

set_option autoImplicit false

namespace EsoHost.Piet

/-- The two machines, with their transcripts, differ in nothing but the
program. -/
structure InStep (s s' : Machine × Transcript) : Prop where
  pointer_eq : s'.1.pointer = s.1.pointer
  stack_eq : s'.1.stack = s.1.stack
  status_eq : s'.1.status = s.1.status
  lastInstruction_eq : s'.1.lastInstruction = s.1.lastInstruction
  steps_eq : s'.1.steps = s.1.steps
  policy_eq : s'.1.policy = s.1.policy
  transcript_eq : s'.2 = s.2

/-- The second program answers as the first does. Slides are compared
where the first program makes them, from pointers that name the block
of their codel. -/
structure Program.Alike (p p' : Program) : Prop where
  blockAt?_eq : ∀ c, p'.blockAt? c = p.blockAt? c
  move_eq : ∀ q, p'.move q = p.move q
  slide_eq : ∀ q start, p.blockAt? q.codel = some q.block → p.move q = .slide start →
    slide p'.grid start = slide p.grid start

namespace Machine

/-- The same machine on another program. -/
def onto (m : Machine) (p : Program) : Machine := { m with program := p }

/-- A machine is in step with itself on another program. -/
theorem inStep_onto (m : Machine) (p : Program) (t : Transcript) :
    InStep (m, t) (m.onto p, t) :=
  ⟨rfl, rfl, rfl, rfl, rfl, rfl, rfl⟩

/-- An instruction does not ask the program anything. -/
theorem perform_onto (m : Machine) (p : Program) (t : Transcript) (instruction : Instruction)
    (value : Nat) (arrival : Pointer) :
    (m.onto p).perform t instruction value arrival
      = ((m.perform t instruction value arrival).1.onto p,
        (m.perform t instruction value arrival).2) := by
  simp only [perform, onto]
  generalize execute m.policy value ⟨m.stack, arrival.heading, t⟩ instruction = result
  obtain ⟨verdict, f⟩ := result
  cases verdict <;> rfl

end Machine

namespace Program.Alike

variable {p p' : Program} {m : Machine} {t : Transcript}

/-- Moving onto a codel asks for its block. -/
theorem moveTo (h : p.Alike p') (hm : m.program = p) (s : Stance) :
    (m.onto p').moveTo s = (m.moveTo s).onto p' := by
  have hblock : (m.onto p').program.blockAt? s.codel = m.program.blockAt? s.codel := by
    rw [hm]
    exact h.blockAt?_eq s.codel
  unfold Machine.moveTo
  rw [hblock]
  cases m.program.blockAt? s.codel <;> rfl

/-- So does the end of a slide. -/
theorem land (h : p.Alike p') (hm : m.program = p) (l : Landing) :
    (m.onto p').land l = (m.land l).onto p' := by
  cases l with
  | colored s =>
    simp only [Machine.land, h.moveTo hm]
    rfl
  | trapped s =>
    simp only [Machine.land, h.moveTo hm]
    rfl

/-- Both machines start in the same place. -/
theorem load (h : p.Alike p') (policy : ExhaustedInput) :
    Machine.load p' policy = (Machine.load p policy).onto p' := by
  unfold Machine.load
  rw [h.blockAt?_eq]
  cases p.blockAt? .origin <;> rfl

/-- One step. -/
theorem step (h : p.Alike p') (hm : m.program = p)
    (hfooting : ¬ m.status.isHalted → p.blockAt? m.pointer.codel = some m.pointer.block) :
    (m.onto p').step t = ((m.step t).1.onto p', (m.step t).2) := by
  by_cases hhalted : m.status.isHalted
  · rw [Machine.step_of_halted hhalted, Machine.step_of_halted (m := m.onto p') hhalted]
  · -- Both machines make the move that the first program gives, and only
    -- what comes of it is left to compare.
    have hmove' : (m.onto p').program.move (m.onto p').pointer = m.program.move m.pointer := by
      rw [hm]
      exact h.move_eq m.pointer
    cases hmove : m.program.move m.pointer with
    | slide start =>
      rw [hmove] at hmove'
      rw [Machine.step_of_slide hhalted hmove,
        Machine.step_of_slide (m := m.onto p') hhalted hmove']
      -- Both slides start where the first program begins one, and end alike.
      have hslide : Piet.slide p'.grid start = Piet.slide m.program.grid start := by
        rw [hm] at hmove ⊢
        exact h.slide_eq m.pointer start (hfooting hhalted) hmove
      rw [← hslide]
      exact congrArg (·, t) (h.land (m := { m with steps := m.steps + 1 }) hm _)
    | perform instruction value arrival =>
      rw [hmove] at hmove'
      rw [Machine.step_of_perform hhalted hmove,
        Machine.step_of_perform (m := m.onto p') hhalted hmove']
      exact Machine.perform_onto { m with steps := m.steps + 1 } p' t instruction value arrival
    | blocked =>
      rw [hmove] at hmove'
      rw [Machine.step_of_blocked hhalted hmove,
        Machine.step_of_blocked (m := m.onto p') hhalted hmove']
      rfl

end Program.Alike

/-! ### Runs -/

section Run

variable {g : Grid} {p' : Program} {m : Machine} {t : Transcript}

/-- The machine runs the program of `g`, and keeps its footing as long
as it goes on. -/
def OnCourse (g : Grid) (m : Machine) : Prop :=
  m.program = .compile g ∧ (m.status.isHalted ∨ ∃ past, Grounded g past m)

/-- A machine starts on course, whatever its grid begins with. -/
theorem onCourse_load (g : Grid) (policy : ExhaustedInput) :
    OnCourse g (.load (.compile g) policy) := by
  by_cases hstart : g.get? .origin = some .black
  · rw [Machine.load_of_black policy hstart]
    exact ⟨rfl, Or.inl rfl⟩
  · have hgrounded := grounded_load policy hstart
    exact ⟨hgrounded.program_eq, Or.inr ⟨_, hgrounded⟩⟩

/-- A machine that goes on names the block of its codel. -/
theorem OnCourse.blockAt?_eq (h : OnCourse g m) (hlive : ¬ m.status.isHalted) :
    (Program.compile g).blockAt? m.pointer.codel = some m.pointer.block := by
  obtain ⟨past, hgrounded⟩ := h.2.resolve_left hlive
  exact hgrounded.block_eq

/-- One command. -/
theorem OnCourse.apply (h : OnCourse g m) (command : Command) :
    OnCourse g (command.apply (m, t)).1 := by
  -- A halted machine stays halted, and any other stays on its footing.
  obtain ⟨hprogram, hhalted | ⟨past, hgrounded⟩⟩ := h
  · cases command with
    | step =>
      show OnCourse g (m.step t).1
      rw [Machine.step_of_halted hhalted]
      exact ⟨hprogram, Or.inl hhalted⟩
    | stop => exact ⟨hprogram, Or.inl (Status.isHalted_stop m.status)⟩
    | offer text => exact ⟨hprogram, Or.inl hhalted⟩
  · cases command with
    | step => exact ⟨hgrounded.step.2.program_eq, Or.inr ⟨_, hgrounded.step.2⟩⟩
    | stop => exact ⟨hprogram, Or.inr ⟨_, hgrounded.stop⟩⟩
    | offer text => exact ⟨hprogram, Or.inr ⟨_, hgrounded⟩⟩

/-- One command, on both machines. -/
theorem OnCourse.apply_onto (h : OnCourse g m) (halike : (Program.compile g).Alike p')
    (command : Command) :
    command.apply (m.onto p', t)
      = ((command.apply (m, t)).1.onto p', (command.apply (m, t)).2) := by
  cases command with
  | step => exact halike.step h.1 h.blockAt?_eq
  | stop => rfl
  | offer text => rfl

/-- Any number of commands. -/
theorem OnCourse.afterCommands_onto (h : OnCourse g m) (halike : (Program.compile g).Alike p')
    (commands : List Command) :
    Machine.afterCommands commands (m.onto p', t)
      = ((Machine.afterCommands commands (m, t)).1.onto p',
        (Machine.afterCommands commands (m, t)).2) := by
  induction commands generalizing m t with
  | nil => rfl
  | cons command commands ih =>
    show Machine.afterCommands commands (command.apply (m.onto p', t)) = _
    rw [h.apply_onto halike]
    exact ih (h.apply command)

/-- A program that is like the program of `g` runs in step with it,
from any transcript and under any commands. -/
theorem Program.Alike.inStep (h : (Program.compile g).Alike p') (policy : ExhaustedInput)
    (t : Transcript) (commands : List Command) :
    InStep (Machine.afterCommands commands (.load (.compile g) policy, t))
      (Machine.afterCommands commands (.load p' policy, t)) := by
  rw [h.load, (onCourse_load g policy).afterCommands_onto h]
  exact Machine.inStep_onto _ p' _

end Run

end EsoHost.Piet
