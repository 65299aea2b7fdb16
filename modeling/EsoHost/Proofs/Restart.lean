import EsoHost.Proofs.Chronicle

/-!
# `EsoHost.Proofs.Restart`: a new run forgets the old one

A session is used again and again: runs are started, stopped and
replaced, and a program may turn out not to load. This module compares
two sessions of one pace that have had different pasts.

What a host can see of a session are the answers to its operations, and
after each of them the state, the transcript and the engine. `Session.sights`
lists all of it. `restart_is_all_or_nothing` says that nothing of the
past is ever seen again once a run has been started, and that a program
that does not load leaves no mark of its own: the session stays as it
was, or is stopped as the host itself could have stopped it.

Only the pace outlives a run (`pace_after`). Everything else that
belongs to a session is either set anew by a successful start or reached
through what is (`run_eq_begun`).
-/

set_option autoImplicit false

namespace EsoHost.Session

/-! ### What a host sees -/

/-- What an operation answers. -/
inductive Answer where
  | nothing
  | started (result : Except LoadError Unit)
  | state (state : RunState)
  | offer (outcome : Transcript.Offer)

/-- The answer to an operation. -/
def Operation.answer (s : Session) : Operation → Answer
  | run mode now load => .started (s.run mode now load).1
  | burst now => .state (s.burst now).state
  | requestStop | stop _ _ => .nothing
  | offer text => .offer (s.offer text).1

/-- What can be seen of a session after an operation. -/
structure Sight where
  answer : Answer
  state : RunState
  transcript : Transcript
  engine : Option Engine

/-- All that can be seen of a session while operations are made on it. -/
def sights (s : Session) : List Operation → List Sight
  | [] => []
  | op :: ops =>
    let s' := op.apply s
    ⟨op.answer s, s'.state, s'.transcript, s'.engine⟩ :: s'.sights ops

/-! ### The pace stays -/

/-- A burst keeps the pace. -/
theorem pace_burst (s : Session) (now : Nat) : (s.burst now).pace = s.pace := by
  show (s.burstOf (s.pace.budget (now - s.lastBurst))).pace = s.pace
  obtain hsame | ⟨e, hadvance⟩ := s.burstOf_cases (s.pace.budget (now - s.lastBurst))
  · rw [hsame]
  · rw [hadvance]

/-- So do the bursts of a stop. -/
theorem pace_settle (s : Session) (times : List Nat) : (s.settle times).pace = s.pace := by
  induction times generalizing s with
  | nil => rfl
  | cons now times ih =>
    unfold settle
    split
    · rw [ih, pace_burst]
    · rfl

/-- So does a stop. -/
theorem pace_stop (s : Session) (times : List Nat) : (s.stop times).pace = s.pace := by
  rw [stop, pace_settle, requestStop]
  split <;> rfl

/-- So does every operation, a start included. -/
theorem pace_apply (s : Session) (op : Operation) : (op.apply s).pace = s.pace := by
  cases op with
  | run mode now load => cases load <;> exact s.pace_stop [now]
  | burst now => exact s.pace_burst now
  | requestStop =>
    show s.requestStop.pace = s.pace
    unfold requestStop
    split <;> rfl
  | stop now later => exact s.pace_stop (now :: later)
  | offer text => rfl

/-- A session has the pace that it was made with. -/
theorem pace_after (s : Session) (ops : List Operation) : (s.after ops).pace = s.pace := by
  induction ops generalizing s with
  | nil => rfl
  | cons op ops ih => exact (ih (op.apply s)).trans (s.pace_apply op)

/-! ### Starts that succeed -/

/-- A session whose run begins now. -/
def begun (pace : Pace) (mode : InputMode) (now : Nat) (engine : Engine) : Session where
  pace := pace
  transcript := .fresh mode
  engine := some engine
  state := if mode = .staged then .awaitingInput else .running
  stopRequested := false
  lastBurst := now

/-- Whatever the session was, a start sets it anew. -/
theorem run_eq_begun (s : Session) (mode : InputMode) (now : Nat) (engine : Engine) :
    s.run mode now (.ok engine) = (.ok (), begun s.pace mode now engine) := by
  cases mode <;> simp [run, begun, s.pace_stop [now]]

/-- What is seen from a start on depends on the pace and the operations
alone. -/
theorem sights_run (s : Session) (mode : InputMode) (now : Nat) (engine : Engine)
    (later : List Operation) :
    s.sights (.run mode now (.ok engine) :: later)
      = ⟨.started (.ok ()), (begun s.pace mode now engine).state, .fresh mode, some engine⟩
        :: (begun s.pace mode now engine).sights later := by
  simp only [sights, Operation.answer, Operation.apply, run_eq_begun]
  rfl

/-! ### Starts that fail -/

/-- A program that does not load stops the run in progress, and does no
more. -/
theorem run_error (s : Session) (mode : InputMode) (now : Nat) (error : LoadError) :
    s.run mode now (.error error) = (.error error, s.stop [now]) := rfl

/-- When a run is stopped does not matter to it. -/
theorem Sound.unchanged_stop {s : Session} (h : s.Sound) (hstate : s.state.isRunning)
    (now now' : Nat) (later later' : List Nat) :
    (s.stop (now :: later)).Unchanged (s.stop (now' :: later')) := by
  obtain ⟨e, he⟩ := h.exists_engine hstate
  obtain ⟨reason, hreason⟩ := Status.exists_halted e.status.isHalted_stop
  rw [stop_cons_of_running he hstate hreason, stop_cons_of_running he hstate hreason]
  exact ⟨rfl, rfl, rfl⟩

/-- Starting a run is all or nothing. Take two new sessions of one pace
and make any operations on each. If a run is then started on both, with
the same program, mode and time, it starts, and no operations whatever
show a difference from then on. If the program does not load, the start
says so; a session at rest is left as it was, and another one as if its
host had stopped it, at whatever times. -/
theorem restart_is_all_or_nothing (pace : Pace) (past past' : List Operation) (mode : InputMode)
    (now : Nat) :
    (∀ engine, (((new pace).after past).run mode now (.ok engine)).1 = .ok () ∧
      ∀ later, ((new pace).after past).sights (.run mode now (.ok engine) :: later)
        = ((new pace).after past').sights (.run mode now (.ok engine) :: later)) ∧
    (∀ error, (((new pace).after past).run mode now (.error error)).1 = .error error ∧
      (¬ ((new pace).after past).state.isRunning →
        ((new pace).after past).Unchanged
          (((new pace).after past).run mode now (.error error)).2) ∧
      (((new pace).after past).state.isRunning → ∀ time times,
        (((new pace).after past).stop (time :: times)).Unchanged
          (((new pace).after past).run mode now (.error error)).2)) := by
  -- Only a stop needs the past to be in order: it relies on the engine of
  -- the run in progress.
  have hsound := ((told_new pace).after past).sound
  refine ⟨fun engine => ⟨?_, fun later => ?_⟩, fun error => ⟨rfl, fun hrest => ?_, ?_⟩⟩
  · rw [run_eq_begun]
  · rw [sights_run, sights_run, pace_after, pace_after]
  · rw [run_error, stop_of_not_running hrest]
    exact ⟨rfl, rfl, rfl⟩
  · intro hstate time times
    rw [run_error]
    exact hsound.unchanged_stop hstate time now times []

end EsoHost.Session
