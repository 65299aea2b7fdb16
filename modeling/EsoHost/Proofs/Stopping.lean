import EsoHost.Proofs.Staging

/-!
# `EsoHost.Proofs.Stopping`: a stop costs one burst

A host asks a run to stop and then makes a burst, or has `Session.stop`
make bursts until the run has ended. The first burst is always enough:
it does not matter how few steps it may make, whether the run waits for
input, or what was typed in the meantime.

* `Session.Asked`: a run in progress was asked to stop. Typing keeps it
  that way (`Session.Asked.after_offers`), so the request is not lost.
* `Session.Acknowledged` says what the burst does that sees the request.
  The burst halts the engine before it looks at anything else, and an
  engine that has halted needs neither input nor budget to be noticed
  (`Session.Asked.acknowledged`).
* `stop_costs_one_burst`: what this means for the host.
-/

set_option autoImplicit false

namespace EsoHost

/-- The line feed that a text lacks at its end, if it lacks one. -/
def missingFeed (text : String) : String :=
  if text.toList.getLast? = some '\n' then "" else "\n"

/-- The stop notice begins on a line of its own. -/
theorem Transcript.printStop_eq (t : Transcript) :
    t.printStop = { t with contents := t.contents ++ missingFeed t.contents ++ stopBanner } := by
  suffices hbreak : (t.printLineBreak false).contents = t.contents ++ missingFeed t.contents by
    rw [← hbreak]
    rfl
  show t.contents ++ _ = _
  congr 1
  unfold missingFeed
  rcases List.eq_nil_or_concat t.contents.toList with hnil | ⟨front, last, hlast⟩
  · simp [hnil]
  · by_cases hfeed : last = '\n'
    · simp [hlast, hfeed]
    · simp [hlast, hfeed]

namespace Session

/-- A run of the engine is in progress, and was asked to stop. -/
structure Asked (e : Engine) (s : Session) : Prop where
  engine_eq : s.engine = some e
  running : s.state.isRunning
  stopRequested_eq : s.stopRequested = true

/-- What it means that the session `s'` has done what `s` was asked to. -/
structure Acknowledged (e : Engine) (s s' : Session) : Prop where
  /-- An engine that had halted by itself keeps its reason. -/
  kept : ∀ reason, e.status = .halted reason → s'.state = .finished reason
  /-- Any other is halted by the request. -/
  stopped : ¬ e.status.isHalted → s'.state = .finished .stopped
  /-- Nothing else happens to the engine. -/
  engine_eq : s'.engine = some e.stop
  /-- The notice is printed, once and on a line of its own, and nothing is
  read. -/
  transcript_eq : s'.transcript = { s.transcript with
    contents := s.transcript.contents ++ missingFeed s.transcript.contents ++
      Transcript.stopBanner }

section Asked

variable {s : Session} {e : Engine}

/-- A run in progress can be asked to stop. -/
theorem asked_requestStop (he : s.engine = some e) (hstate : s.state.isRunning) :
    s.requestStop.Asked e := by
  have hrequest : s.requestStop = { s with stopRequested := true } := by
    rw [requestStop, if_pos hstate]
  rw [hrequest]
  exact ⟨he, hstate, rfl⟩

/-- Whatever is typed, the request stands. -/
theorem Asked.after_offers (h : s.Asked e) (texts : List String) :
    (s.after (texts.map .offer)).Asked e := by
  induction texts generalizing s with
  | nil => exact h
  | cons text texts ih =>
    have hoffer : (s.offer text).2.Asked e := ⟨h.engine_eq, h.running, h.stopRequested_eq⟩
    exact ih hoffer

/-- A session that was asked to stop makes the engine halt first. -/
theorem Asked.status_eq (h : s.Asked e) {reason : HaltReason}
    (hreason : e.status.stop = .halted reason) :
    (if s.stopRequested then e.stop else e).status = .halted reason := by
  rw [if_pos h.stopRequested_eq, Engine.status_stop, hreason]

/-- The next burst does what was asked, whatever its time and budget. -/
theorem Asked.acknowledged (h : s.Asked e) (now : Nat) : Acknowledged e s (s.burst now) := by
  obtain ⟨reason, hreason⟩ := Status.exists_halted e.status.isHalted_stop
  rw [burst_of_halted h.engine_eq h.running (h.status_eq hreason), if_pos h.stopRequested_eq]
  -- What the engine is told does not change a reason that it has already.
  refine ⟨fun reason' hhalted => ?_, fun hlive => ?_, rfl, s.transcript.printStop_eq⟩
  · rw [hhalted] at hreason
    exact congrArg RunState.finished (Status.halted.inj hreason).symm
  · rw [Status.stop_of_not_halted hlive] at hreason
    exact congrArg RunState.finished (Status.halted.inj hreason).symm

/-- It makes no step. -/
theorem Asked.stepsDuring_burst (h : s.Asked e) (now : Nat) :
    s.stepsDuring [.burst now] = 0 := by
  obtain ⟨reason, hreason⟩ := Status.exists_halted e.status.isHalted_stop
  have hhalted : (if s.stopRequested then e.stop else e).status.isHalted := by
    rw [h.status_eq hreason]
    rfl
  rw [stepsDuring, stepsDuring, count_step_burst, if_pos h.running,
    burstSteps_of_halted h.engine_eq hhalted]

/-- The run is over then. -/
theorem Asked.not_isRunning_burst (h : s.Asked e) (now : Nat) :
    ¬ (s.burst now).state.isRunning := by
  have hack := h.acknowledged now
  by_cases hhalted : e.status.isHalted
  · obtain ⟨reason, hreason⟩ := Status.exists_halted hhalted
    exact RunState.not_isRunning_of_finished (hack.kept reason hreason)
  · exact RunState.not_isRunning_of_finished (hack.stopped hhalted)

end Asked

/-- A stop costs one burst. Take any session with a run in progress, after
any operations and at any pace, a pace of zero included. Ask it to stop
and type anything: the next burst, at any time, makes no step and
finishes the run. So the loop of `stop`, which has to make a burst,
makes no second one, and a second `stop` changes nothing at all. -/
theorem stop_costs_one_burst (pace : Pace) (past : List Operation) (texts : List String)
    (now : Nat) (hrunning : ((new pace).after past).state.isRunning) :
    let s := (new pace).after past
    let asked := s.requestStop.after (texts.map .offer)
    ∃ e, s.engine = some e ∧ Acknowledged e asked (asked.burst now) ∧
      asked.stepsDuring [.burst now] = 0 ∧
      s.requestStop.state.isRunning ∧ ¬ (s.requestStop.burst now).state.isRunning ∧
      ∀ later, s.stop (now :: later) = s.requestStop.burst now ∧
        ∀ times, (s.stop (now :: later)).stop times = s.stop (now :: later) := by
  intro s asked
  obtain ⟨e, he⟩ := ((told_new pace).after past).sound.exists_engine hrunning
  have hrequest : s.requestStop.Asked e := asked_requestStop he hrunning
  have hasked : asked.Asked e := hrequest.after_offers texts
  have hended := hrequest.not_isRunning_burst now
  refine ⟨e, he, hasked.acknowledged now, hasked.stepsDuring_burst now, hrequest.running, hended,
    fun later => ?_⟩
  have hloop : s.stop (now :: later) = s.requestStop.burst now := by
    show s.requestStop.settle (now :: later) = _
    rw [settle, if_pos hrequest.running]
    exact settle_of_not_running hended later
  refine ⟨hloop, fun times => ?_⟩
  rw [hloop]
  exact stop_of_not_running hended times

/-- A staged run that waits for its input, at a pace that allows no step
at all. The input comes after the request. -/
theorem stop_costs_one_burst_at_pace_zero :
    let s := (new ⟨0, 0⟩).after [.run .staged 0 (.ok Terminal.echo), .burst 5000000]
    let asked := s.requestStop.after (["### Input:\n\nx\n", "x"].map .offer)
    s.state = .awaitingInput ∧ asked.transcript.hasPending ∧
      (asked.burst 9000000).state = .finished .stopped ∧
      asked.stepsDuring [.burst 9000000] = 0 ∧
      ∀ later, s.stop (9000000 :: later) = s.requestStop.burst 9000000 := by
  intro s asked
  obtain ⟨e, he, hack, hsteps, -, -, hloop⟩ := stop_costs_one_burst ⟨0, 0⟩
    [.run .staged 0 (.ok Terminal.echo), .burst 5000000] ["### Input:\n\nx\n", "x"] 9000000 rfl
  obtain rfl : Terminal.echo = e := Option.some.inj he
  exact ⟨rfl, by decide +kernel, hack.stopped (by simp [Terminal.echo, Engine.status,
    Brainfuck.Machine.load, Status.isHalted]), hsteps, fun later => (hloop later).1⟩

end Session

end EsoHost
