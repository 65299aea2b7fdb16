import EsoHost.Proofs.Chronicle
import EsoHost.Proofs.Record

/-!
# `EsoHost.Proofs.Waiting`: a read that waits leaves no trace

A step finds out late that it has to wait for input. By then a Piet
machine has looked for an exit, decoded the instruction and taken the
blanks before a number that did not come. This module shows that
nothing of it is left behind but a higher step counter, so that the
step can be made again, any number of times.

* `Engine.waiting` is an engine after some steps that had to wait: only
  the status and the step counter differ. `Engine.step_of_wait` says
  that a step that waits leads there, and leaves nothing to read. What
  was left before made no difference to it.
* `Engine.step_waiting`: an engine that waits makes the step that it
  would have made at first.
* `retries_leave_no_trace` puts these together: a line that comes after
  any number of tries has the effect that it would have had before the
  first.
-/

set_option autoImplicit false

namespace EsoHost

/-! ### Transcripts with nothing to read -/

namespace Transcript

/-- A record that is accepted takes the place of what was left. -/
theorem offer_emptied {t : Transcript} {text : String} (h : (t.offer text).1 = .accepted) :
    t.emptied.offer text = t.offer text := by
  unfold offer at h ⊢
  simp only [emptied]
  split
  · rename_i hnone
    simp [hnone] at h
  · rename_i hnothing
    simp [hnothing] at h
  · rename_i added hne hadded
    simp only [hadded] at h
    split
    · rename_i hopen
      simp [hopen] at h
    · rfl

end Transcript

/-! ### Piet -/

namespace Piet

/-- An instruction that waits would have done so with nothing to read in
the first place, and so it waits again when it is tried again. -/
theorem execute_wait_again {policy : ExhaustedInput} {value : Nat} {f f' : Frame}
    {instruction : Instruction} (h : execute policy value f instruction = (.wait, f')) :
    execute policy value f' instruction = (.wait, f') := by
  obtain ⟨-, rfl, hread⟩ := execute_wait_eq h
  rcases hread with hunread | ⟨rfl, hskipped⟩
  · rw [Transcript.emptied_of_unread hunread] at h ⊢
    exact h
  · -- The blanks that the first try used up are those that the second does not meet.
    exact (execute_inNumber_of_skipped hskipped).trans h

namespace Machine

/-- The machine after `n` steps that had to wait. -/
def waiting (m : Machine) (n : Nat) : Machine :=
  { m with status := .awaitingInput, steps := m.steps + n }

/-- The machine with `n` more steps on its counter. -/
def delayed (m : Machine) (n : Nat) : Machine := { m with steps := m.steps + n }

/-- A slide sets the status anew. -/
theorem land_waiting (m : Machine) (n : Nat) (l : Landing) :
    (m.waiting n).land l = (m.land l).delayed n := by
  cases l with
  | colored s =>
    simp only [land, moveTo, waiting, delayed]
    split <;> rfl
  | trapped s =>
    simp only [land, moveTo, waiting, delayed]
    split <;> rfl

/-- An instruction sets the status anew, however it ends. -/
theorem perform_waiting (m : Machine) (n : Nat) (t : Transcript) (instruction : Instruction)
    (value : Nat) (arrival : Pointer) :
    (m.waiting n).perform t instruction value arrival
      = ((m.perform t instruction value arrival).1.delayed n,
        (m.perform t instruction value arrival).2) := by
  simp only [perform, waiting]
  generalize execute m.policy value ⟨m.stack, arrival.heading, t⟩ instruction = result
  obtain ⟨verdict, f⟩ := result
  cases verdict <;> rfl

/-- A machine that waits makes the step that it would have made at
first. -/
theorem step_waiting {m : Machine} (h : ¬ m.status.isHalted) (n : Nat) (t : Transcript) :
    (m.waiting n).step t = ((m.step t).1.delayed n, (m.step t).2) := by
  have hlive : ¬ (m.waiting n).status.isHalted := by simp [waiting, Status.isHalted]
  -- A step counts before it looks where to go.
  have hcount : { m.waiting n with steps := (m.waiting n).steps + 1 }
      = ({ m with steps := m.steps + 1 } : Machine).waiting n := by
    simp only [waiting, Nat.add_right_comm]
  -- Where the pointer goes next does not depend on the status, so both
  -- machines make the same move.
  cases hmove : m.program.move m.pointer with
  | slide start =>
    rw [step_of_slide hlive hmove, step_of_slide h hmove, hcount, land_waiting]
    rfl
  | perform instruction value arrival =>
    rw [step_of_perform hlive hmove, step_of_perform h hmove, hcount, perform_waiting]
  | blocked =>
    rw [step_of_blocked hlive hmove, step_of_blocked h hmove]
    simp only [waiting, delayed, Nat.add_right_comm]

/-- A step that waits is in the middle of an instruction. -/
theorem step_cases_of_wait {m : Machine} {t : Transcript}
    (h : (m.step t).1.status = .awaitingInput) :
    ¬ m.status.isHalted ∧ ∃ (instruction : Instruction) (value : Nat) (arrival : Pointer),
      m.program.move m.pointer = .perform instruction value arrival ∧
      ∃ f, execute m.policy value ⟨m.stack, arrival.heading, t⟩ instruction = (.wait, f) := by
  by_cases hhalted : m.status.isHalted
  · rw [step_of_halted hhalted] at h
    rw [h] at hhalted
    cases hhalted
  · refine ⟨hhalted, ?_⟩
    -- A slide goes on or is blocked, and a pointer with no way out is blocked.
    cases hmove : m.program.move m.pointer with
    | slide start =>
      rw [step_of_slide hhalted hmove] at h
      cases hslide : Piet.slide m.program.grid start <;> simp [land, hslide] at h
    | blocked =>
      rw [step_of_blocked hhalted hmove] at h
      cases h
    | perform instruction value arrival =>
      refine ⟨instruction, value, arrival, rfl, ?_⟩
      rw [step_of_perform hhalted hmove] at h
      cases hexec : execute m.policy value ⟨m.stack, arrival.heading, t⟩ instruction with
      | mk verdict f =>
        cases verdict with
        | wait => exact ⟨f, rfl⟩
        | _ => simp [perform, hexec] at h

/-- What is left of a step that waits: the status says so, the step is
counted, and nothing is left to read. It would have been the same with
nothing to read in the first place. -/
theorem step_of_wait {m : Machine} {t : Transcript}
    (h : (m.step t).1.status = .awaitingInput) :
    ¬ m.status.isHalted ∧ t.mode = .interactive ∧ m.step t = (m.waiting 1, t.emptied) ∧
      m.step t.emptied = (m.waiting 1, t.emptied) := by
  obtain ⟨hlive, instruction, value, arrival, hmove, f, hexec⟩ := step_cases_of_wait h
  have hagain := execute_wait_again hexec
  -- All that the instruction has changed is the record, and `hagain` says
  -- that it would wait there again.
  obtain ⟨hmode, rfl, -⟩ := execute_wait_eq hexec
  refine ⟨hlive, hmode, ?_, ?_⟩
  · simp only [step_of_perform hlive hmove, perform, hexec]
    rfl
  · simp only [step_of_perform hlive hmove, perform, hagain]
    rfl

end Machine

end Piet

/-! ### Brainfuck -/

namespace Brainfuck

namespace Machine

/-- The machine after `n` steps that had to wait. -/
def waiting (m : Machine) (n : Nat) : Machine :=
  { m with status := .awaitingInput, steps := m.steps + n }

/-- The machine with `n` more steps on its counter. -/
def delayed (m : Machine) (n : Nat) : Machine := { m with steps := m.steps + n }

/-- A machine that stands behind the last command halts. -/
theorem step_of_end {m : Machine} (h : ¬ m.status.isHalted) (hend : m.program[m.next]? = none)
    (t : Transcript) : m.step t = ({ m with status := .halted .endOfProgram }, t) := by
  obtain ⟨program, next, tape, status, steps⟩ := m
  simp only [step, if_neg h, hend]

/-- Any other machine that has not halted executes the command at its
place. -/
theorem step_of_command {m : Machine} {c : Command} (h : ¬ m.status.isHalted)
    (hc : m.program[m.next]? = some c) (t : Transcript) :
    m.step t = (⟨m.program, (c.execute m.next m.tape t).next, (c.execute m.next m.tape t).tape,
      (c.execute m.next m.tape t).status, m.steps + 1⟩,
      (c.execute m.next m.tape t).transcript) := by
  obtain ⟨program, next, tape, status, steps⟩ := m
  simp only [step, if_neg h, hc]

/-- A machine that waits makes the step that it would have made at
first. -/
theorem step_waiting {m : Machine} (h : ¬ m.status.isHalted) (n : Nat) (t : Transcript) :
    (m.waiting n).step t = ((m.step t).1.delayed n, (m.step t).2) := by
  have hlive : ¬ (m.waiting n).status.isHalted := by simp [waiting, Status.isHalted]
  cases hc : m.program[m.next]? with
  | none =>
    rw [step_of_end hlive hc, step_of_end h hc]
    rfl
  | some c =>
    rw [step_of_command hlive hc, step_of_command h hc]
    simp only [waiting, delayed, Nat.add_right_comm]

/-- What is left of a step that waits: the status says so, and the step
is counted. There was nothing to read. -/
theorem step_of_wait {m : Machine} {t : Transcript}
    (h : (m.step t).1.status = .awaitingInput) :
    ¬ m.status.isHalted ∧ t.mode = .interactive ∧ t.unread = [] ∧ m.step t = (m.waiting 1, t) := by
  by_cases hhalted : m.status.isHalted
  · obtain ⟨program, next, tape, status, steps⟩ := m
    simp only [step, if_pos hhalted] at h
    rw [h] at hhalted
    cases hhalted
  · refine ⟨hhalted, ?_⟩
    cases hc : m.program[m.next]? with
    | none =>
      rw [step_of_end hhalted hc] at h
      cases h
    | some c =>
      rw [step_of_command hhalted hc] at h ⊢
      obtain ⟨hmode, hunread, heffect⟩ := Command.execute_wait h
      rw [heffect]
      exact ⟨hmode, hunread, rfl⟩

end Machine

end Brainfuck

/-! ### Engines -/

namespace Engine

/-- The engine after `n` steps that had to wait. Only the status and the
step counter are not what they were. -/
def waiting (n : Nat) : Engine → Engine
  | piet m => piet (m.waiting n)
  | brainfuck m => brainfuck (m.waiting n)

/-- The engine with `n` more steps on its counter, and no other
difference. -/
def delayed (n : Nat) : Engine → Engine
  | piet m => piet (m.delayed n)
  | brainfuck m => brainfuck (m.delayed n)

/-- Steps that had to wait add up. -/
theorem delayed_waiting (e : Engine) (k n : Nat) :
    (e.waiting k).delayed n = e.waiting (k + n) := by
  cases e with
  | piet m =>
    simp only [waiting, delayed, Piet.Machine.waiting, Piet.Machine.delayed, Nat.add_assoc]
  | brainfuck m =>
    simp only [waiting, delayed, Brainfuck.Machine.waiting, Brainfuck.Machine.delayed,
      Nat.add_assoc]

/-- A step that waits is made in an interactive run, and changes nothing
but the status and the step counter. It leaves nothing to read, and
what it has left out made no difference to it. -/
theorem step_of_wait {e : Engine} {t : Transcript} (h : (e.step t).1.status = .awaitingInput) :
    ¬ e.status.isHalted ∧ t.mode = .interactive ∧ e.step t = (e.waiting 1, t.emptied) ∧
      e.step t.emptied = (e.waiting 1, t.emptied) := by
  cases e with
  | piet m =>
    obtain ⟨hlive, hmode, hstep, hagain⟩ := Piet.Machine.step_of_wait h
    refine ⟨hlive, hmode, ?_, ?_⟩
    · simp only [step, hstep, waiting]
    · simp only [step, hagain, waiting]
  | brainfuck m =>
    obtain ⟨hlive, hmode, hunread, hstep⟩ := Brainfuck.Machine.step_of_wait h
    rw [Transcript.emptied_of_unread hunread]
    refine ⟨hlive, hmode, ?_, ?_⟩ <;> simp only [step, hstep, waiting]

/-- An engine that waits makes the step that it would have made at
first. -/
theorem step_waiting {e : Engine} (h : ¬ e.status.isHalted) (n : Nat) (t : Transcript) :
    (e.waiting n).step t = ((e.step t).1.delayed n, (e.step t).2) := by
  cases e with
  | piet m => simp only [waiting, step, Piet.Machine.step_waiting h, delayed]
  | brainfuck m => simp only [waiting, step, Brainfuck.Machine.step_waiting h, delayed]

/-- Any number of tries. -/
theorem replay_of_wait {e : Engine} {t : Transcript} (h : (e.step t).1.status = .awaitingInput)
    (k : Nat) :
    Deed.replay (List.replicate (k + 1) .step) (e, t) = (e.waiting (k + 1), t.emptied) := by
  obtain ⟨hlive, -, hstep, hagain⟩ := step_of_wait h
  induction k with
  | zero => exact hstep
  | succ k ih =>
    rw [List.replicate_succ', Deed.replay_append, ih]
    -- From the second try on there is nothing to read, and the step is the first one again.
    show (e.waiting (k + 1)).step t.emptied = _
    rw [step_waiting hlive, hagain, delayed_waiting, Nat.add_comm 1]

end Engine

/-- A read that waits leaves no trace. If a step of an engine has to
wait, it changes nothing but the status and the step counter, prints
nothing and leaves nothing to read. However often it is made again, a
line that is typed then is accepted and has the effect that it would
have had before the first try: the next step ends in the same engine,
apart from its step counter, and in the same transcript. -/
theorem retries_leave_no_trace (e : Engine) (t : Transcript)
    (h : (e.step t).1.status = .awaitingInput) :
    e.step t = (e.waiting 1, { t with unread := [] }) ∧
    ∀ (k : Nat) (line : String), line.toList.getLast? = some '\n' →
      ∃ e' t', Deed.replay (List.replicate (k + 1) .step) (e, t) = (e', t') ∧
        (t'.type line).1 = .accepted ∧ (t.type line).1 = .accepted ∧
        e'.step (t'.type line).2
          = ((e.step (t.type line).2).1.delayed (k + 1), (e.step (t.type line).2).2) := by
  obtain ⟨hlive, -, hstep, -⟩ := Engine.step_of_wait h
  refine ⟨hstep, fun k line hline => ?_⟩
  have haccepted := (t.type_of_ended hline).1
  -- What is typed takes the place of what the tries would have used up.
  have htyped : t.emptied.type line = t.type line := Transcript.offer_emptied haccepted
  refine ⟨_, _, Engine.replay_of_wait h k, (t.emptied.type_of_ended hline).1, haccepted, ?_⟩
  rw [htyped, Engine.step_waiting hlive]

/-- Light red beside dark blue: the way from one to the other reads a
number. -/
def asking : Piet.Program :=
  .assemble
    { width := 2
      height := 1
      cells := #[.chromatic .red .light, .chromatic .blue .dark]
      size_cells := rfl
      width_pos := Nat.two_pos
      height_pos := Nat.one_pos }
    #[⟨0, .chromatic .red .light, #[⟨0, 0⟩]⟩, ⟨1, .chromatic .blue .dark, #[⟨1, 0⟩]⟩]
    { width := 2, height := 1, cells := #[some 0, some 1], size_cells := rfl }

/-- An empty line was typed: there are blanks to read, and no number. -/
def blankLine : Transcript := ((Transcript.fresh .interactive).type " \n").2

/-- Three tries, and then the number comes. -/
theorem asking_leaves_no_trace :
    ((Engine.ofPiet asking .skip).step blankLine).1.status = .awaitingInput ∧
    blankLine.unread = [' ', '\n'] ∧ "7\n".toList.getLast? = some '\n' ∧
    (Engine.ofPiet asking .skip).step blankLine
      = ((Engine.ofPiet asking .skip).waiting 1, { blankLine with unread := [] }) ∧
    ∃ e' t', Deed.replay (List.replicate 3 .step) (Engine.ofPiet asking .skip, blankLine)
        = (e', t') ∧
      (t'.type "7\n").1 = .accepted ∧ (blankLine.type "7\n").1 = .accepted ∧
      e'.step (t'.type "7\n").2
        = (((Engine.ofPiet asking .skip).step (blankLine.type "7\n").2).1.delayed 3,
          ((Engine.ofPiet asking .skip).step (blankLine.type "7\n").2).2) := by
  have hwait : ((Engine.ofPiet asking .skip).step blankLine).1.status = .awaitingInput := by
    decide +kernel
  obtain ⟨hstep, hretry⟩ := retries_leave_no_trace _ _ hwait
  exact ⟨hwait, by decide, by decide, hstep, hretry 2 "7\n" (by decide)⟩

end EsoHost
