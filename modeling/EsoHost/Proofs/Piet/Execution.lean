import EsoHost.Piet.Machine
import EsoHost.Proofs.Transcript

/-!
# `EsoHost.Proofs.Piet.Execution`: what instructions do to the transcript

An instruction only adds text (`grows_execute`), and one that waits has
left nothing to read (`execute_wait_eq`). Both carry over to steps of a
machine.

A read that waits may have taken blanks from the record (`Skipped`):
those before a number that did not come. They make no difference to
anything that can happen next.
-/

set_option autoImplicit false

namespace EsoHost.Piet

/-! ### Waiting reads -/

/-- The transcript `t` lacks at most blanks that `u` still has to
read: blanks before a number are all that was left of its record. -/
def Skipped (t u : Transcript) : Prop :=
  (∀ c ∈ u.unread, isFiller c) ∧ t = { u with unread := [] }

/-- A read waits only if it found nothing. -/
theorem receive_wait {policy : ExhaustedInput} {f f' : Frame} {read : Reading Int64 × Transcript}
    (h : f.receive policy read = (.wait, f')) :
    read.1 = .exhausted ∧ f' = { f with transcript := read.2 } := by
  obtain ⟨reading, t⟩ := read
  cases reading with
  | ready n => exact absurd (Prod.mk.inj h).1 (by simp)
  | malformed => exact absurd (Prod.mk.inj h).1 (by simp)
  | exhausted =>
    simp only [Frame.receive, Frame.starve] at h
    split at h
    · exact ⟨rfl, (Prod.mk.inj h).2.symm⟩
    · cases policy <;> exact absurd (Prod.mk.inj h).1 (by simp)

/-- A read that waits belongs to an interactive run. -/
theorem isInteractive_of_receive {policy : ExhaustedInput} {f f' : Frame}
    {read : Reading Int64 × Transcript} (h : f.receive policy read = (.wait, f')) :
    read.2.isInteractive := by
  obtain ⟨hreading, -⟩ := receive_wait h
  simp only [Frame.receive, hreading, Frame.starve] at h
  split at h
  · assumption
  · cases policy <;> exact absurd (Prod.mk.inj h).1 (by simp)

/-- Only a read waits, and only in an interactive run. Nothing is left to
read then, and nothing else is changed. What was left before were at
most blanks before a number that did not come. -/
theorem execute_wait_eq {policy : ExhaustedInput} {value : Nat} {f f' : Frame}
    {instruction : Instruction} (h : execute policy value f instruction = (.wait, f')) :
    f.transcript.mode = .interactive ∧ f' = { f with transcript := f.transcript.emptied } ∧
      (f.transcript.unread = [] ∨
        instruction = .inNumber ∧ Skipped f.transcript.emptied f.transcript) := by
  cases instruction with
  | inNumber =>
    -- Blanks before a number go even if none comes, so the record is empty
    -- either way.
    have hmode : f.transcript.isInteractive := isInteractive_of_receive h
    obtain ⟨hreading, hframe⟩ := receive_wait h
    obtain ⟨hfillers, hrest⟩ := fillers_of_readNumber (Prod.ext hreading rfl)
    have hread : f.transcript.readNumber.2 = f.transcript.emptied := by
      simp only [Transcript.readNumber, hrest, Transcript.emptied]
    rw [hread] at hframe
    exact ⟨by simpa [Transcript.isInteractive] using hmode, hframe, Or.inr ⟨rfl, hfillers, rfl⟩⟩
  | inChar =>
    -- Every character is one that can be read, so there was none.
    have hmode : f.transcript.readChar.2.isInteractive := isInteractive_of_receive h
    obtain ⟨hreading, hframe⟩ := receive_wait h
    obtain ⟨hunread, hsame⟩ :=
      Transcript.unread_of_readChar (Reading.exhausted_of_map hreading)
    have hframe : f' = { f with transcript := f.transcript.readChar.2 } := hframe
    rw [hsame] at hmode hframe
    rw [Transcript.emptied_of_unread hunread]
    exact ⟨by simpa [Transcript.isInteractive] using hmode, hframe, Or.inl hunread⟩
  | outChar =>
    simp only [execute] at h
    split at h
    · exact absurd (Prod.mk.inj h).1 (by simp)
    · exact absurd (Prod.mk.inj h).1 (by simp)
  | _ => exact absurd (Prod.mk.inj h).1 (by simp)

/-- The same from the other side: an instruction that waits leaves the
stack alone, and takes from the record at most the blanks before a
number that did not come. -/
theorem execute_wait {policy : ExhaustedInput} {value : Nat} {f f' : Frame}
    {instruction : Instruction} (h : execute policy value f instruction = (.wait, f')) :
    f'.stack = f.stack ∧ f'.transcript.unread = [] ∧
      (f'.transcript = f.transcript ∨
        instruction = .inNumber ∧ Skipped f'.transcript f.transcript) := by
  obtain ⟨-, rfl, hread⟩ := execute_wait_eq h
  refine ⟨rfl, rfl, ?_⟩
  rcases hread with hunread | hskipped
  · exact Or.inl (Transcript.emptied_of_unread hunread)
  · exact Or.inr hskipped

/-- Blanks that were skipped make no difference to reading a number. -/
theorem execute_inNumber_of_skipped {policy : ExhaustedInput} {value : Nat} {stack : Stack}
    {heading : Heading} {t u : Transcript} (h : Skipped t u) :
    execute policy value ⟨stack, heading, t⟩ .inNumber
      = execute policy value ⟨stack, heading, u⟩ .inNumber := by
  obtain ⟨hfillers, rfl⟩ := h
  have hnothing : readNumber [] = (.exhausted, []) := rfl
  simp only [execute, Transcript.readNumber, readNumber_of_fillers hfillers, hnothing]
  rfl

/-- An edit is accepted whatever is left to read, and replaces it. -/
theorem offer_of_skipped {t u : Transcript} (h : Skipped t u) (text : String) :
    (t.offer text).2 = (u.offer text).2 ∨
      Skipped (t.offer text).2 (u.offer text).2 ∧ (u.offer text).2 = u := by
  -- What an offer makes of a text depends on the contents, not on what is
  -- left to read.
  obtain ⟨hfillers, rfl⟩ := h
  simp only [Transcript.offer]
  split
  · exact Or.inr ⟨⟨hfillers, rfl⟩, rfl⟩
  · exact Or.inr ⟨⟨hfillers, rfl⟩, rfl⟩
  · split
    · exact Or.inr ⟨⟨hfillers, rfl⟩, rfl⟩
    · split
      · exact Or.inl rfl
      · exact Or.inl rfl

/-! ### Growth -/

/-- Whatever comes of a read, the transcript is the one that it left. -/
theorem transcript_receive (f : Frame) (policy : ExhaustedInput)
    (read : Reading Int64 × Transcript) : (f.receive policy read).2.transcript = read.2 := by
  obtain ⟨reading, t⟩ := read
  cases reading with
  | ready n => rfl
  | malformed => rfl
  | exhausted =>
    simp only [Frame.receive, Frame.starve]
    split
    · rfl
    · cases policy <;> rfl

/-- An instruction only adds to the transcript. -/
theorem grows_execute (policy : ExhaustedInput) (value : Nat) (f : Frame)
    (instruction : Instruction) :
    f.transcript.Grows (execute policy value f instruction).2.transcript := by
  cases instruction with
  | inNumber =>
    simp only [execute, transcript_receive]
    exact .of_contents_eq rfl
  | inChar =>
    simp only [execute, transcript_receive]
    exact .of_contents_eq f.transcript.contents_readChar
  | outNumber => exact Transcript.grows_print _ _
  | outChar =>
    simp only [execute]
    split
    · exact Transcript.grows_print _ _
    · exact .refl _
  | _ => exact .refl _

namespace Machine

/-- What a step does to the transcript, unless it executes an
instruction: nothing. -/
theorem step_cases (m : Machine) (t : Transcript) :
    (m.step t).2 = t ∧ (m.step t).1.status ≠ .awaitingInput ∨
      ∃ (m' : Machine) (instruction : Instruction) (value : Nat) (arrival : Pointer),
        m.step t = m'.perform t instruction value arrival := by
  by_cases hhalted : m.status.isHalted
  · rw [step_of_halted hhalted]
    refine Or.inl ⟨rfl, fun h => ?_⟩
    rw [h] at hhalted
    cases hhalted
  · cases hmove : m.program.move m.pointer with
    | slide start =>
      rw [step_of_slide hhalted hmove]
      refine Or.inl ⟨rfl, ?_⟩
      cases Piet.slide m.program.grid start <;> simp [land]
    | perform instruction value arrival =>
      exact Or.inr ⟨_, _, _, _, step_of_perform hhalted hmove⟩
    | blocked =>
      rw [step_of_blocked hhalted hmove]
      exact Or.inl ⟨rfl, by simp⟩

/-- The transcript after a step is the one that the instruction left. -/
theorem transcript_perform (m : Machine) (t : Transcript) (instruction : Instruction)
    (value : Nat) (arrival : Pointer) :
    (m.perform t instruction value arrival).2
      = (execute m.policy value ⟨m.stack, arrival.heading, t⟩ instruction).2.transcript := by
  unfold perform
  generalize execute m.policy value ⟨m.stack, arrival.heading, t⟩ instruction = result
  obtain ⟨verdict, f⟩ := result
  cases verdict <;> rfl

/-- A step only adds to the transcript. -/
theorem grows_step (m : Machine) (t : Transcript) : t.Grows (m.step t).2 := by
  obtain ⟨hsame, -⟩ | ⟨m', instruction, value, arrival, hperform⟩ := m.step_cases t
  · rw [hsame]
    exact .refl t
  · rw [hperform, transcript_perform]
    exact grows_execute m'.policy value ⟨m'.stack, arrival.heading, t⟩ instruction

/-- A machine that waits has nothing to read. -/
theorem unread_step {m : Machine} {t : Transcript}
    (h : (m.step t).1.status = .awaitingInput) : (m.step t).2.unread = [] := by
  obtain ⟨-, hstatus⟩ | ⟨m', instruction, value, arrival, hperform⟩ := m.step_cases t
  · exact absurd h hstatus
  · rw [hperform] at h ⊢
    rw [transcript_perform]
    cases hexec : execute m'.policy value ⟨m'.stack, arrival.heading, t⟩ instruction with
    | mk verdict f =>
      cases verdict with
      | wait => exact (execute_wait hexec).2.1
      | _ => exact absurd h (by simp [perform, hexec])

end Machine

end EsoHost.Piet
