import EsoHost.Proofs.Engine
import EsoHost.Session

/-!
# `EsoHost.Proofs.Session`: what a session does to its run

A burst only adds to the transcript (`Session.grows_burst`), makes no
difference if no run is in progress, and is all that a stop needs
(`Session.stop_of_running`).
-/

set_option autoImplicit false

namespace EsoHost.Session

/-- The steps of a burst only add to the transcript, and so does the
notice after them. -/
theorem grows_advance (budget : Nat) (e : Engine) (t : Transcript) :
    t.Grows (advance budget e t).2.2 := by
  induction budget generalizing e t with
  | zero =>
    unfold advance
    split
    · exact t.grows_printStop
    · exact .refl t
  | succ budget ih =>
    by_cases hhalted : e.status.isHalted
    · obtain ⟨reason, hreason⟩ := Status.exists_halted hhalted
      rw [advance_of_halted hreason]
      exact t.grows_printStop
    · by_cases hwait : (e.step t).1.status = .awaitingInput
      · rw [advance_succ_of_awaiting hhalted hwait]
        exact e.grows_step t
      · rw [advance_succ hhalted hwait]
        exact (e.grows_step t).trans (ih _ _)

/-- A burst only adds to the transcript. -/
theorem grows_burst (s : Session) (now : Nat) : s.transcript.Grows (s.burst now).transcript := by
  show s.transcript.Grows (s.burstOf (s.pace.budget (now - s.lastBurst))).transcript
  obtain hsame | ⟨e, hadvance⟩ := s.burstOf_cases (s.pace.budget (now - s.lastBurst))
  · rw [hsame]
    exact .refl _
  · rw [hadvance]
    exact grows_advance _ e s.transcript

/-- A burst of a session at rest only sets the time of the last burst.
-/
theorem burst_of_not_running {s : Session} (h : ¬ s.state.isRunning) (now : Nat) :
    s.burst now = { s with lastBurst := now } := by
  simp only [burst, burstOf_of_not_running h]

/-- A burst that finds the engine halted, or has just told it to stop,
finishes the run without a step. -/
theorem burst_of_halted {s : Session} {e : Engine} {reason : HaltReason} (he : s.engine = some e)
    (hstate : s.state.isRunning)
    (hreason : (if s.stopRequested then e.stop else e).status = .halted reason) (now : Nat) :
    s.burst now = { s with
      state := .finished reason
      engine := some (if s.stopRequested then e.stop else e)
      transcript := s.transcript.printStop
      lastBurst := now } := by
  have hburst := burstOf_eq_advance (s.pace.budget (now - s.lastBurst)) he hstate
    fun _ => Or.inl (by rw [hreason]; rfl)
  simp only [burst, hburst, advance_of_halted hreason]

/-- A single burst stops a run, whatever its time. -/
theorem stop_of_running {s : Session} {e : Engine} {reason : HaltReason}
    (he : s.engine = some e) (hstate : s.state.isRunning)
    (hreason : e.status.stop = .halted reason) (now : Nat) :
    s.stop [now] = { s with
      state := .finished reason
      engine := some e.stop
      transcript := s.transcript.printStop
      stopRequested := true
      lastBurst := now } := by
  have hstopped : (if true then e.stop else e).status = .halted reason := by
    rw [if_pos rfl, Engine.status_stop, hreason]
  -- The request comes first, and the burst after it finds an engine that
  -- has to stop.
  have hburst := burst_of_halted (s := { s with stopRequested := true }) he hstate hstopped now
  simp only [stop, requestStop, hstate, if_true, settle, hburst]

end EsoHost.Session
