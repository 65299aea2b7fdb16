import EsoHost.Engine
import EsoHost.Proofs.Piet.Execution

/-!
# `EsoHost.Proofs.Engine`: what every engine does

A host knows two things about an engine of either language: its steps
only add to the transcript (`Engine.grows_step`), and when it waits for
input there is none left (`Engine.unread_step`).
-/

set_option autoImplicit false

namespace EsoHost

namespace Brainfuck

/-- A command only adds to the transcript. -/
theorem Command.grows_execute (c : Command) (place : Nat) (tape : Tape) (t : Transcript) :
    t.Grows (c.execute place tape t).transcript := by
  cases c with
  | output => exact Transcript.grows_print _ _
  | input =>
    -- Reading moves within what is there already, whatever it finds.
    have hcontents := t.contents_readChar
    simp only [execute]
    cases hread : t.readChar with
    | mk reading t' =>
      rw [hread] at hcontents
      cases reading with
      | exhausted =>
        show t.Grows (Effect.transcript (if t'.isInteractive then _ else _))
        split <;> exact .of_contents_eq hcontents
      | _ => exact .of_contents_eq hcontents
  | _ => exact .refl t

/-- Only `,` waits. It does so in an interactive run with nothing to
read, and then changes nothing. -/
theorem Command.execute_wait {c : Command} {place : Nat} {tape : Tape} {t : Transcript}
    (h : (c.execute place tape t).status = .awaitingInput) :
    t.mode = .interactive ∧ t.unread = [] ∧
      c.execute place tape t = ⟨place, tape, t, .awaitingInput⟩ := by
  cases c with
  | input =>
    cases hunread : t.unread with
    | nil =>
      have hread : t.readChar = (.exhausted, t) := by simp [Transcript.readChar, hunread]
      -- A staged read with nothing left goes on, so this one is interactive.
      have hmode : t.isInteractive := by
        by_contra hstaged
        simp [execute, hread, hstaged] at h
      refine ⟨by simpa [Transcript.isInteractive] using hmode, rfl, ?_⟩
      simp only [execute, hread, if_pos hmode]
    | cons first rest => exact absurd h (by simp [execute, Transcript.readChar, hunread])
  | _ => cases h

/-- A command that waits has nothing to read. -/
theorem Command.unread_execute {c : Command} {place : Nat} {tape : Tape} {t : Transcript}
    (h : (c.execute place tape t).status = .awaitingInput) :
    (c.execute place tape t).transcript.unread = [] := by
  obtain ⟨-, hunread, heffect⟩ := execute_wait h
  rw [heffect]
  exact hunread

namespace Machine

/-- A step executes one command, or leaves the transcript as it is. -/
theorem step_cases (m : Machine) (t : Transcript) :
    (m.step t).2 = t ∧ (m.step t).1.status ≠ .awaitingInput ∨
      ∃ c : Command, (m.step t).2 = (c.execute m.next m.tape t).transcript ∧
        (m.step t).1.status = (c.execute m.next m.tape t).status := by
  obtain ⟨program, next, tape, status, steps⟩ := m
  simp only [step]
  split
  · rename_i hhalted
    refine Or.inl ⟨rfl, ?_⟩
    intro hwait
    rw [show status = .awaitingInput from hwait] at hhalted
    cases hhalted
  · split
    · exact Or.inl ⟨rfl, by simp⟩
    · rename_i c _
      exact Or.inr ⟨c, rfl, rfl⟩

/-- A step only adds to the transcript. -/
theorem grows_step (m : Machine) (t : Transcript) : t.Grows (m.step t).2 := by
  obtain ⟨hsame, -⟩ | ⟨c, htranscript, -⟩ := m.step_cases t
  · rw [hsame]
    exact .refl t
  · rw [htranscript]
    exact c.grows_execute m.next m.tape t

/-- A machine that waits has nothing to read. -/
theorem unread_step {m : Machine} {t : Transcript}
    (h : (m.step t).1.status = .awaitingInput) : (m.step t).2.unread = [] := by
  obtain ⟨-, hstatus⟩ | ⟨c, htranscript, hstatus⟩ := m.step_cases t
  · exact absurd h hstatus
  · rw [htranscript]
    exact Command.unread_execute (hstatus.symm.trans h)

end Machine

end Brainfuck

namespace Engine

/-- A step only adds to the transcript. -/
theorem grows_step (e : Engine) (t : Transcript) : t.Grows (e.step t).2 := by
  cases e with
  | piet m => exact m.grows_step t
  | brainfuck m => exact m.grows_step t

/-- An engine that waits has nothing to read. -/
theorem unread_step {e : Engine} {t : Transcript}
    (h : (e.step t).1.status = .awaitingInput) : (e.step t).2.unread = [] := by
  cases e with
  | piet m => exact Piet.Machine.unread_step h
  | brainfuck m => exact Brainfuck.Machine.unread_step h

/-- An engine of either language stops in the same way. -/
theorem status_stop (e : Engine) : e.stop.status = e.status.stop := by
  cases e <;> rfl

/-- An engine that has halted cannot be stopped again. -/
theorem stop_of_halted {e : Engine} {reason : HaltReason} (h : e.status = .halted reason) :
    e.stop = e := by
  have hstatus : e.status.stop = e.status := by rw [h]; rfl
  cases e with
  | piet m =>
    show piet { m with status := m.status.stop } = piet m
    rw [show m.status.stop = m.status from hstatus]
  | brainfuck m =>
    show brainfuck { m with status := m.status.stop } = brainfuck m
    rw [show m.status.stop = m.status from hstatus]

end Engine

end EsoHost
