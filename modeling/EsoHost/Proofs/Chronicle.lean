import Mathlib.Data.List.Basic
import Mathlib.Tactic.Common
import EsoHost.Proofs.Session

/-!
# `EsoHost.Proofs.Chronicle`: what operations do to a session

A host works on a session by operations (`Session.Operation`), in any
order and at any times. What they do to the run at hand is told as a
list of deeds (`Deed`): the engine makes a step, the session tells it
to stop, the user offers a text, the session prints the stop notice.
A `Chronicle` has the deeds of a run in order, and `Chronicle.result`
plays them back, from the engine that was loaded and a fresh
transcript.

* `Session.outcome_advance`: a burst makes plain steps, and then finds
  the engine halted, waiting, or neither.
* `Session.Sound`: the invariant on state and engine.
* `Session.Told`: the chronicle is right. Played back, it gives the
  engine and the transcript of the session, so whatever the session has
  printed is in it; and it has one notice if the run is finished, and
  else none.
* `in_order_after_operations`: all of this, after any operations.
-/

set_option autoImplicit false

namespace EsoHost

/-! ### Deeds -/

/-- What is done to the engine and the transcript of a run. -/
inductive Deed where
  /-- The engine makes a step. -/
  | step
  /-- The session tells the engine to stop. -/
  | halt
  /-- The user offers a text. -/
  | offer (text : String)
  /-- The session prints the stop notice. -/
  | notice
  deriving DecidableEq

namespace Deed

/-- The engine and the transcript after a deed. -/
def apply : Deed → Engine × Transcript → Engine × Transcript
  | step, (e, t) => e.step t
  | halt, (e, t) => (e.stop, t)
  | offer text, (e, t) => (e, (t.offer text).2)
  | notice, (e, t) => (e, t.printStop)

/-- The engine and the transcript after some deeds. -/
def replay (deeds : List Deed) (s : Engine × Transcript) : Engine × Transcript :=
  deeds.foldl (fun s deed => deed.apply s) s

/-- Deeds are played back in order. -/
theorem replay_append (deeds more : List Deed) (s : Engine × Transcript) :
    replay (deeds ++ more) s = replay more (replay deeds s) :=
  List.foldl_append

end Deed

/-- A stop notice stands on a line of its own: there is a line feed
before it. -/
theorem Transcript.suffix_printStop (t : Transcript) :
    '\n' :: stopBanner.toList <:+ t.printStop.contents.toList := by
  -- The line break before the notice is what differs from transcript to
  -- transcript.
  suffices hfeed : ∃ front, (t.printLineBreak false).contents.toList = front ++ ['\n'] by
    obtain ⟨front, hfront⟩ := hfeed
    refine ⟨front, ?_⟩
    rw [printStop, contents_print, String.toList_append, hfront, List.append_assoc]
    rfl
  rcases List.eq_nil_or_concat t.contents.toList with hnil | ⟨front, last, hlast⟩
  · exact ⟨[], by simp [printLineBreak, hnil]⟩
  · by_cases hfeed : last = '\n'
    · -- One line feed is there already, so none is printed.
      refine ⟨front, ?_⟩
      simp [printLineBreak, hlast, hfeed]
    · exact ⟨t.contents.toList, by simp [printLineBreak, hlast, hfeed]⟩

namespace RunState

/-- The run has come to its end. -/
def isFinished : RunState → Bool
  | finished _ => true
  | _ => false

/-- A run that is finished has come to its end. -/
@[simp]
theorem isFinished_finished (reason : HaltReason) : (finished reason).isFinished := rfl

/-- A run that goes on has not. -/
@[simp]
theorem isFinished_running : running.isFinished = false := rfl

/-- Nor has one that waits. -/
@[simp]
theorem isFinished_awaitingInput : awaitingInput.isFinished = false := rfl

/-- No run in progress is finished. -/
theorem not_isFinished_of_isRunning {state : RunState} (h : state.isRunning) :
    ¬ state.isFinished := by
  cases state with
  | idle => cases h
  | running => simp
  | awaitingInput => simp
  | finished reason => cases h

end RunState

namespace Session

/-! ### Steps of a burst -/

/-- How many steps `advance` makes. -/
def advanceSteps : (budget : Nat) → Engine → Transcript → Nat
  | 0, _, _ => 0
  | budget + 1, e, t =>
    if e.status.isHalted then 0
    else if (e.step t).1.status = .awaitingInput then 1
    else advanceSteps budget (e.step t).1 (e.step t).2 + 1

/-- What a burst comes to, if it has brought the engine to `e` and the
transcript to `t`. -/
inductive Outcome (e : Engine) (t : Transcript) : RunState × Engine × Transcript → Prop where
  | finished (reason : HaltReason) (halted : e.status = .halted reason) :
      Outcome e t (.finished reason, e, t.printStop)
  | awaiting (live : ¬ e.status.isHalted) (unread : t.unread = []) :
      Outcome e t (.awaitingInput, e, t)
  | running (live : ¬ e.status.isHalted) : Outcome e t (.running, e, t)

/-- A burst makes plain steps, and looks at the engine after them. -/
theorem outcome_advance (budget : Nat) (e : Engine) (t : Transcript) :
    Outcome (Deed.replay (List.replicate (advanceSteps budget e t) .step) (e, t)).1
      (Deed.replay (List.replicate (advanceSteps budget e t) .step) (e, t)).2
      (advance budget e t) := by
  induction budget generalizing e t with
  | zero =>
    by_cases hhalted : e.status.isHalted
    · obtain ⟨reason, hreason⟩ := Status.exists_halted hhalted
      rw [advance_of_halted hreason]
      exact .finished reason hreason
    · rw [advance_zero hhalted]
      exact .running hhalted
  | succ budget ih =>
    by_cases hhalted : e.status.isHalted
    · obtain ⟨reason, hreason⟩ := Status.exists_halted hhalted
      rw [advance_of_halted hreason, advanceSteps, if_pos hhalted]
      exact .finished reason hreason
    · by_cases hwait : (e.step t).1.status = .awaitingInput
      · rw [advance_succ_of_awaiting hhalted hwait, advanceSteps, if_neg hhalted, if_pos hwait]
        refine .awaiting ?_ (Engine.unread_step hwait)
        show ¬ (e.step t).1.status.isHalted
        simp [hwait, Status.isHalted]
      · rw [advance_succ hhalted hwait, advanceSteps, if_neg hhalted, if_neg hwait]
        exact ih _ _

/-- How many steps a burst makes. -/
def burstSteps (s : Session) (budget : Nat) : Nat :=
  match s.engine with
  | none => 0
  | some e =>
    let e := if s.stopRequested then e.stop else e
    if s.state = .awaitingInput ∧ !e.status.isHalted ∧ !s.transcript.hasPending then 0
    else advanceSteps budget e s.transcript

/-- What a burst does before it looks at the engine for the last time:
it tells the engine to stop if the host wants it, and makes its
steps. -/
def effort (s : Session) (now : Nat) : List Deed :=
  (if s.stopRequested then [.halt] else []) ++
    List.replicate (s.burstSteps (s.pace.budget (now - s.lastBurst))) .step

/-- Only the engine has to be told to stop before the steps are made. -/
theorem replay_effort (s : Session) (now : Nat) (e : Engine) :
    Deed.replay (s.effort now) (e, s.transcript)
      = Deed.replay
          (List.replicate (s.burstSteps (s.pace.budget (now - s.lastBurst))) .step)
          (if s.stopRequested then e.stop else e, s.transcript) := by
  rw [effort, Deed.replay_append]
  split <;> rfl

/-- A burst of a run in progress. -/
theorem outcome_burst {s : Session} {e : Engine} (he : s.engine = some e)
    (hstate : s.state.isRunning) (now : Nat) :
    ∃ e', (s.burst now).engine = some e' ∧
      Outcome (Deed.replay (s.effort now) (e, s.transcript)).1
        (Deed.replay (s.effort now) (e, s.transcript)).2
        ((s.burst now).state, e', (s.burst now).transcript) := by
  rw [replay_effort]
  simp only [burst, burstSteps, he]
  generalize s.pace.budget (now - s.lastBurst) = budget
  -- A burst makes no steps only while the run waits for a line that has
  -- not come.
  by_cases hready : s.state = .awaitingInput →
      (if s.stopRequested then e.stop else e).status.isHalted ∨ s.transcript.hasPending
  · have hburst := burstOf_eq_advance budget he hstate hready
    rw [if_neg]
    · rw [hburst]
      exact ⟨_, rfl, outcome_advance budget _ s.transcript⟩
    · rintro ⟨hwait, hlive, hnothing⟩
      rcases hready hwait with h | h
      · simp [h] at hlive
      · simp [h] at hnothing
  · -- The run waits, and nothing happens. Nobody wants it to stop, for a stopped engine halts.
    simp only [Classical.not_imp, not_or] at hready
    obtain ⟨hwait, hlive, hnothing⟩ := hready
    have hstop : s.stopRequested = false := by
      cases hwanted : s.stopRequested with
      | false => rfl
      | true => simp [hwanted, Engine.status_stop] at hlive
    rw [burstOf_of_awaiting he hwait hlive hnothing,
      if_pos ⟨hwait, by simpa using hlive, by simpa using hnothing⟩]
    refine ⟨e, he, ?_⟩
    simp only [hstop] at hlive ⊢
    rw [hwait]
    have hunread : s.transcript.unread = [] := by simpa [Transcript.hasPending] using hnothing
    exact .awaiting hlive hunread

/-! ### Operations -/

/-- What a host can do with a session. -/
inductive Operation where
  /-- Stop the run in progress, if there is one, and start another; the
  program may turn out not to load. -/
  | run (mode : InputMode) (now : Nat) (load : Except LoadError Engine)
  | burst (now : Nat)
  | requestStop
  /-- Stop the run with bursts at these times, as many as it takes. -/
  | stop (now : Nat) (later : List Nat)
  | offer (text : String)

namespace Operation

/-- The session after an operation. -/
def apply : Operation → Session → Session
  | run mode now load, s => (s.run mode now load).2
  | burst now, s => s.burst now
  | requestStop, s => s.requestStop
  | stop now later, s => s.stop (now :: later)
  | offer text, s => (s.offer text).2

/-- The operation starts a run. -/
def Loads : Operation → Prop
  | run _ _ (.ok _) => True
  | _ => False

/-- The session when an operation has done what it does to the run at
hand. Only a new run may be started after that. -/
def settled : Operation → Session → Session
  | run _ now _, s => s.stop [now]
  | op, s => op.apply s

/-- What an operation does to the run at hand. A run is stopped by a
word to its engine and a notice, without a step. -/
def deeds (s : Session) : Operation → List Deed
  | burst now =>
    if s.state.isRunning then
      s.effort now ++ if (s.burst now).state.isFinished then [.notice] else []
    else
      []
  | requestStop => []
  | offer text => [.offer text]
  | stop _ _ | run _ _ _ => if s.state.isRunning then [.halt, .notice] else []

end Operation

/-- The session after a sequence of operations. -/
def after (s : Session) (ops : List Operation) : Session := ops.foldl (fun s op => op.apply s) s

/-! ### State and engine -/

/-- There is an engine as soon as a run was started, and a finished run
has an engine that has halted for the same reason. -/
structure Sound (s : Session) : Prop where
  engine_eq_none_iff : s.engine = none ↔ s.state = .idle
  halted : ∀ reason, s.state = .finished reason →
    ∃ e, s.engine = some e ∧ e.status = .halted reason

/-- A new session is idle and has no engine. -/
theorem sound_new (pace : Pace) : (new pace).Sound :=
  ⟨⟨fun _ => rfl, fun _ => rfl⟩, fun _ h => absurd h (by simp [new])⟩

/-- A run in progress has an engine. -/
theorem Sound.exists_engine {s : Session} (h : s.Sound) (hstate : s.state.isRunning) :
    ∃ e, s.engine = some e := by
  cases he : s.engine with
  | some e => exact ⟨e, rfl⟩
  | none =>
    rw [h.engine_eq_none_iff.mp he] at hstate
    cases hstate

/-- There is nothing to wait for if no run is in progress. -/
theorem settle_of_not_running {s : Session} (h : ¬ s.state.isRunning) (times : List Nat) :
    s.settle times = s := by
  cases times with
  | nil => rfl
  | cons now times => simp [settle, h]

/-- The first burst of a stop is the last. -/
theorem stop_cons_of_running {s : Session} {e : Engine} {reason : HaltReason}
    (he : s.engine = some e) (hstate : s.state.isRunning)
    (hreason : e.status.stop = .halted reason) (now : Nat) (later : List Nat) :
    s.stop (now :: later) = { s with
      state := .finished reason
      engine := some e.stop
      transcript := s.transcript.printStop
      stopRequested := true
      lastBurst := now } := by
  have hstop := stop_of_running he hstate hreason now
  have hrequest : s.requestStop.state.isRunning := by simp [requestStop, hstate]
  rw [stop, settle, if_pos hrequest] at hstop ⊢
  rw [settle] at hstop
  rw [hstop]
  exact settle_of_not_running (by simp [RunState.isRunning]) later

/-- And nothing to ask for. -/
theorem requestStop_of_not_running {s : Session} (h : ¬ s.state.isRunning) :
    s.requestStop = s := by
  simp [requestStop, h]

/-- And nothing to stop. -/
theorem stop_of_not_running {s : Session} (h : ¬ s.state.isRunning) (times : List Nat) :
    s.stop times = s := by
  rw [stop, requestStop_of_not_running h, settle_of_not_running h]

/-! ### What is done is told -/

/-- The deeds are all that was done to the run from `s` to `s'`. There
is a notice among them exactly if they finished the run, and then the
transcript ends with it. -/
structure Carried (s : Session) (deeds : List Deed) (s' : Session) : Prop where
  sound : s'.Sound
  engine_eq_none : s.engine = none → s'.engine = none
  replay_eq : ∀ e, s.engine = some e →
    ∃ e', s'.engine = some e' ∧ Deed.replay deeds (e, s.transcript) = (e', s'.transcript)
  count_eq : deeds.count .notice = if s.state.isRunning ∧ s'.state.isFinished then 1 else 0
  suffix : .notice ∈ deeds →
    '\n' :: Transcript.stopBanner.toList <:+ s'.transcript.contents.toList
  finished : s.state.isFinished → s'.state = s.state

/-- Nothing is done to the run. -/
theorem Sound.carried_nil {s s' : Session} (h : s.Sound) (hengine : s'.engine = s.engine)
    (htranscript : s'.transcript = s.transcript) (hstate : s'.state = s.state) :
    Carried s [] s' where
  sound := ⟨by rw [hengine, hstate]; exact h.engine_eq_none_iff,
    by rw [hengine, hstate]; exact h.halted⟩
  engine_eq_none he := hengine.trans he
  replay_eq e he := ⟨e, hengine.trans he, by rw [htranscript]; rfl⟩
  count_eq := by
    rw [hstate]
    cases s.state <;> simp [RunState.isRunning, RunState.isFinished]
  suffix hmem := absurd hmem List.not_mem_nil
  finished _ := hstate

/-- A stop. -/
theorem Sound.carried_stop {s : Session} (h : s.Sound) (now : Nat) (later : List Nat) :
    Carried s (if s.state.isRunning then [.halt, .notice] else []) (s.stop (now :: later)) := by
  by_cases hstate : s.state.isRunning
  · obtain ⟨e, he⟩ := h.exists_engine hstate
    obtain ⟨reason, hreason⟩ := Status.exists_halted e.status.isHalted_stop
    rw [stop_cons_of_running he hstate hreason, if_pos hstate]
    refine ⟨⟨by simp, ?_⟩, ?_, ?_, ?_, ?_, ?_⟩
    · rintro reason' hfinished
      cases hfinished
      exact ⟨e.stop, rfl, by rw [Engine.status_stop, hreason]⟩
    · intro hnone
      rw [he] at hnone
      cases hnone
    · intro e' he'
      rw [he] at he'
      cases he'
      exact ⟨e.stop, rfl, rfl⟩
    · simp [hstate]
    · intro _
      exact s.transcript.suffix_printStop
    · intro hfinished
      exact absurd hfinished (RunState.not_isFinished_of_isRunning hstate)
  · rw [if_neg hstate, stop_of_not_running hstate]
    exact h.carried_nil rfl rfl rfl

/-- A burst leaves the engine where its steps brought it. It prints a
notice if the engine has halted, and else nothing. -/
theorem Outcome.cases {e e' : Engine} {t t' : Transcript} {state : RunState}
    (h : Outcome e t (state, e', t')) :
    e' = e ∧ ((∃ reason, state = .finished reason ∧ e.status = .halted reason ∧ t' = t.printStop) ∨
      state.isRunning ∧ t' = t) := by
  cases h with
  | finished reason halted => exact ⟨rfl, Or.inl ⟨reason, rfl, halted, rfl⟩⟩
  | awaiting _ _ => exact ⟨rfl, Or.inr ⟨rfl, rfl⟩⟩
  | running _ => exact ⟨rfl, Or.inr ⟨rfl, rfl⟩⟩

/-- A run that waits after its burst has nothing to read. -/
theorem Outcome.of_awaiting {e e' : Engine} {t t' : Transcript}
    (h : Outcome e t (.awaitingInput, e', t')) : ¬ e'.status.isHalted ∧ t'.unread = [] := by
  cases h with
  | awaiting hlive hunread => exact ⟨hlive, hunread⟩

/-- What a burst comes to is told by its effort and by a notice, if it
has finished the run. -/
theorem Outcome.carried {s s' : Session} {e e' : Engine} {deeds : List Deed}
    (he : s.engine = some e) (hstate : s.state.isRunning) (hdeeds : .notice ∉ deeds)
    (he' : s'.engine = some e')
    (h : Outcome (Deed.replay deeds (e, s.transcript)).1 (Deed.replay deeds (e, s.transcript)).2
      (s'.state, e', s'.transcript)) :
    Carried s (deeds ++ if s'.state.isFinished then [.notice] else []) s' := by
  have hcount : deeds.count .notice = 0 := List.count_eq_zero.mpr hdeeds
  have hunfinished : s.state.isFinished → s'.state = s.state :=
    fun hfinished => absurd hfinished (RunState.not_isFinished_of_isRunning hstate)
  -- The notice is the last deed, and it is there exactly if the burst has
  -- found the engine halted.
  obtain ⟨rfl, ⟨reason, hreason, hhalted, hprinted⟩ | ⟨hrunning, hsame⟩⟩ := h.cases
  · have hfinished : s'.state.isFinished := by simp [hreason]
    rw [if_pos hfinished]
    refine ⟨⟨by simp [he', hreason], ?_⟩, by simp [he], ?_, ?_, ?_, hunfinished⟩
    · intro reason' hreason'
      cases hreason.symm.trans hreason'
      exact ⟨_, he', hhalted⟩
    · intro e₀ he₀
      cases Option.some.inj (he.symm.trans he₀)
      refine ⟨_, he', ?_⟩
      rw [Deed.replay_append, hprinted]
      rfl
    · simp [hcount, hstate, hfinished]
    · intro _
      rw [hprinted]
      exact Transcript.suffix_printStop _
  · have hfinished : ¬ s'.state.isFinished := RunState.not_isFinished_of_isRunning hrunning
    rw [if_neg hfinished, List.append_nil]
    refine ⟨⟨?_, ?_⟩, by simp [he], ?_, ?_, fun hmem => absurd hmem hdeeds, hunfinished⟩
    · rw [he']
      constructor
      · intro hnone
        cases hnone
      · intro hidle
        rw [hidle] at hrunning
        cases hrunning
    · intro reason hreason
      rw [hreason] at hrunning
      cases hrunning
    · intro e₀ he₀
      cases Option.some.inj (he.symm.trans he₀)
      exact ⟨_, he', by rw [hsame]⟩
    · simp [hcount, hfinished]

/-- No notice is printed before the engine is looked at. -/
theorem notice_not_mem_effort (s : Session) (now : Nat) : .notice ∉ s.effort now := by
  rw [effort, List.mem_append]
  rintro (hmem | hmem)
  · split at hmem <;> simp at hmem
  · simp at hmem

/-- A burst. -/
theorem Sound.carried_burst {s : Session} (h : s.Sound) (now : Nat) :
    Carried s ((Operation.burst now).deeds s) (s.burst now) := by
  by_cases hstate : s.state.isRunning
  · obtain ⟨e, he⟩ := h.exists_engine hstate
    obtain ⟨e', he', houtcome⟩ := outcome_burst he hstate now
    rw [Operation.deeds, if_pos hstate]
    exact houtcome.carried he hstate (s.notice_not_mem_effort now) he'
  · rw [Operation.deeds, if_neg hstate, burst_of_not_running hstate]
    exact h.carried_nil rfl rfl rfl

/-- An offer changes the transcript alone. -/
theorem Sound.carried_offer {s : Session} (h : s.Sound) (text : String) :
    Carried s [.offer text] (s.offer text).2 where
  sound := ⟨h.engine_eq_none_iff, h.halted⟩
  engine_eq_none he := he
  replay_eq e he := ⟨e, he, rfl⟩
  count_eq := by
    show _ = if s.state.isRunning ∧ s.state.isFinished then 1 else 0
    cases s.state <;> rfl
  suffix hmem := absurd hmem (by simp)
  finished _ := rfl

/-- Whatever the operation, its deeds are all that it does to the run
at hand. -/
theorem Sound.carried {s : Session} (h : s.Sound) (op : Operation) :
    Carried s (op.deeds s) (op.settled s) := by
  cases op with
  | run mode now load => exact h.carried_stop now []
  | burst now => exact h.carried_burst now
  | requestStop =>
    refine h.carried_nil ?_ ?_ ?_ <;>
      · simp only [Operation.settled, Operation.apply, requestStop]
        split <;> rfl
  | stop now later => exact h.carried_stop now later
  | offer text => exact h.carried_offer text

/-! ### Chronicles -/

/-- A run from its start on. -/
structure Chronicle where
  mode : InputMode
  /-- The engine that was loaded. -/
  engine : Engine
  /-- All that was done to the run, in order. -/
  deeds : List Deed

namespace Chronicle

/-- The engine and the transcript that the deeds have brought about. -/
def result (c : Chronicle) : Engine × Transcript := Deed.replay c.deeds (c.engine, .fresh c.mode)

/-- More deeds. -/
def add (c : Chronicle) (deeds : List Deed) : Chronicle := { c with deeds := c.deeds ++ deeds }

end Chronicle

/-- Enters an operation on session `s`. A new run has a chronicle of
its own. -/
def Operation.enter (s : Session) (story : Option Chronicle) : Operation → Option Chronicle
  | .run mode _ (.ok engine) => some ⟨mode, engine, []⟩
  | op => story.map fun c => c.add (op.deeds s)

/-- The chronicle of the run at hand after a sequence of operations. -/
def chronicle (s : Session) (story : Option Chronicle) : List Operation → Option Chronicle
  | [] => story
  | op :: ops => (op.apply s).chronicle (op.enter s story) ops

/-- An operation that starts no run is done when it is done with the run
at hand. -/
theorem Operation.apply_of_not_loads {op : Operation} (h : ¬ op.Loads) (s : Session) :
    op.apply s = op.settled s := by
  match op, h with
  | .run _ _ (.ok _), h => exact absurd trivial h
  | .run _ _ (.error _), _ => rfl
  | .burst _, _ => rfl
  | .requestStop, _ => rfl
  | .stop _ _, _ => rfl
  | .offer _, _ => rfl

/-- Such an operation goes into the chronicle of the run at hand. -/
theorem Operation.enter_of_not_loads {op : Operation} (h : ¬ op.Loads) (s : Session)
    (story : Option Chronicle) : op.enter s story = story.map fun c => c.add (op.deeds s) := by
  match op, h with
  | .run _ _ (.ok _), h => exact absurd trivial h
  | .run _ _ (.error _), _ => rfl
  | .burst _, _ => rfl
  | .requestStop, _ => rfl
  | .stop _ _, _ => rfl
  | .offer _, _ => rfl

/-- The chronicle tells how the session has got where it is. -/
structure Told (s : Session) (story : Option Chronicle) : Prop where
  sound : s.Sound
  engine_eq : s.engine = story.map fun c => c.result.1
  transcript_eq : ∀ c ∈ story, s.transcript = c.result.2
  count_eq : ∀ c ∈ story, c.deeds.count .notice = if s.state.isFinished then 1 else 0

/-- A new session has no run to tell of. -/
theorem told_new (pace : Pace) : (new pace).Told none :=
  ⟨sound_new pace, rfl, by simp, by simp⟩

/-- What an operation does to the run at hand goes into its chronicle. -/
theorem Told.settled {s : Session} {story : Option Chronicle} (h : s.Told story) (op : Operation) :
    (op.settled s).Told (story.map fun c => c.add (op.deeds s)) := by
  have hcarried := h.sound.carried op
  refine ⟨hcarried.sound, ?_, ?_, ?_⟩
  · cases story with
    | none => exact hcarried.engine_eq_none h.engine_eq
    | some c =>
      obtain ⟨e', he', hreplay⟩ := hcarried.replay_eq _ h.engine_eq
      rw [h.transcript_eq c rfl] at hreplay
      rw [he', Option.map_some, Option.map_some, Chronicle.result, Chronicle.add,
        Deed.replay_append]
      exact congrArg (fun played => some played.1) hreplay.symm
  · rintro c' hc'
    obtain ⟨c, rfl, rfl⟩ := Option.map_eq_some_iff.mp hc'
    obtain ⟨e', he', hreplay⟩ := hcarried.replay_eq _ h.engine_eq
    rw [h.transcript_eq c rfl] at hreplay
    rw [Chronicle.result, Chronicle.add, Deed.replay_append]
    exact congrArg Prod.snd hreplay.symm
  · rintro c' hc'
    obtain ⟨c, rfl, rfl⟩ := Option.map_eq_some_iff.mp hc'
    show (c.deeds ++ op.deeds s).count .notice = _
    rw [List.count_append, h.count_eq c rfl, hcarried.count_eq]
    -- A finished run has its notice and gets no other. A run in progress
    -- has none, and gets one with the deeds that finish it.
    cases hstate : s.state with
    | idle =>
      -- There is an engine, so something was loaded.
      exact absurd ((h.sound.engine_eq_none_iff.mpr hstate).symm.trans h.engine_eq) (by simp)
    | finished reason =>
      have hstill := hcarried.finished (by simp [hstate])
      simp [hstill, hstate, RunState.isRunning]
    | running => simp [RunState.isRunning]
    | awaitingInput => simp [RunState.isRunning]

/-- One operation more. -/
theorem Told.apply {s : Session} {story : Option Chronicle} (h : s.Told story) (op : Operation) :
    (op.apply s).Told (op.enter s story) := by
  by_cases hloads : op.Loads
  · match op, hloads with
    | .run mode now (.ok engine), _ =>
      -- A new run begins: nothing of the old one is left.
      show Told (s.run mode now (.ok engine)).2 (some ⟨mode, engine, []⟩)
      refine ⟨⟨?_, ?_⟩, rfl, ?_, ?_⟩
      · cases mode <;> simp [run]
      · cases mode <;> simp [run]
      · rintro c ⟨⟩
        rfl
      · rintro c ⟨⟩
        cases mode <;> rfl
  · rw [Operation.apply_of_not_loads hloads, Operation.enter_of_not_loads hloads]
    exact h.settled op

/-- Any number of operations. -/
theorem Told.after {s : Session} {story : Option Chronicle} (h : s.Told story)
    (ops : List Operation) : (s.after ops).Told (s.chronicle story ops) := by
  induction ops generalizing s story with
  | nil => exact h
  | cons op ops ih => exact ih (h.apply op)

/-- Only a successful load brings an engine into a session. -/
theorem Told.engine_eq_none_iff {s : Session} {story : Option Chronicle} (h : s.Told story)
    (ops : List Operation) :
    (s.after ops).engine = none ↔ s.engine = none ∧ ∀ op ∈ ops, ¬ op.Loads := by
  induction ops generalizing s story with
  | nil => simp [Session.after]
  | cons op ops ih =>
    have hop : (op.apply s).engine = none ↔ s.engine = none ∧ ¬ op.Loads := by
      by_cases hloads : op.Loads
      · match op, hloads with
        | .run mode now (.ok engine), hloads => simp [Operation.apply, run, hloads]
      · have hcarried := h.sound.carried op
        rw [Operation.apply_of_not_loads hloads]
        refine ⟨fun hnone => ⟨?_, hloads⟩, fun hnone => hcarried.engine_eq_none hnone.1⟩
        cases he : s.engine with
        | none => rfl
        | some e =>
          obtain ⟨e', he', -⟩ := hcarried.replay_eq e he
          exact absurd (he'.symm.trans hnone) (by simp)
    show ((op.apply s).after ops).engine = none ↔ _
    rw [ih (h.apply op), hop, List.forall_mem_cons, and_assoc]

/-! ### In order -/

/-- Engine, transcript and state are the same. -/
def Unchanged (s s' : Session) : Prop :=
  s'.engine = s.engine ∧ s'.transcript = s.transcript ∧ s'.state = s.state

/-- What can be said of a session after the operations `ops`, when
`story` is the chronicle of its run. -/
structure InOrder (ops : List Operation) (s : Session) (story : Option Chronicle) : Prop where
  /-- A session is idle as long as nothing was loaded. -/
  idle_iff : s.state = .idle ↔ ∀ op ∈ ops, ¬ op.Loads
  /-- It has no engine for just as long. -/
  engine_eq_none_iff : s.engine = none ↔ ∀ op ∈ ops, ¬ op.Loads
  /-- The engine of a finished run has halted for the same reason. -/
  halted : ∀ reason, s.state = .finished reason →
    ∃ e, s.engine = some e ∧ e.status = .halted reason
  /-- The chronicle of a run, played back, gives the engine and the
  transcript of the session. -/
  told : s.engine = (story.map fun c => c.result.1) ∧ ∀ c ∈ story, s.transcript = c.result.2
  /-- This stays so when an operation is done with the run. -/
  told_settled : ∀ c ∈ story, ∀ op : Operation,
    (op.settled s).engine = some (c.add (op.deeds s)).result.1 ∧
    (op.settled s).transcript = (c.add (op.deeds s)).result.2
  /-- The session has printed one notice if the run is finished, and
  else none. -/
  count_eq : ∀ c ∈ story, c.deeds.count .notice = if s.state.isFinished then 1 else 0
  count_settled : ∀ c ∈ story, ∀ op : Operation,
    (c.add (op.deeds s)).deeds.count .notice = if (op.settled s).state.isFinished then 1 else 0
  /-- The operation that finishes the run prints the notice, and no
  other does. -/
  notice_iff : ∀ op : Operation,
    .notice ∈ op.deeds s ↔ s.state.isRunning ∧ (op.settled s).state.isFinished
  /-- The transcript ends with the notice then, and a line feed comes
  before it. -/
  suffix : ∀ op : Operation, .notice ∈ op.deeds s →
    '\n' :: Transcript.stopBanner.toList <:+ (op.settled s).transcript.contents.toList
  /-- If no run is in progress, bursts and stops change nothing. -/
  at_rest : ¬ s.state.isRunning → ∀ now later,
    s.Unchanged (s.burst now) ∧ s.Unchanged s.requestStop ∧ s.Unchanged (s.stop (now :: later))
  /-- A session that waits after a burst has an engine that has not
  halted, and nothing to read. -/
  awaiting : ∀ now, (s.burst now).state = .awaitingInput →
    ∃ e, (s.burst now).engine = some e ∧ ¬ e.status.isHalted ∧ ¬ (s.burst now).transcript.hasPending

/-- A session that waits after a burst has an engine that can go on, and
nothing to read. -/
theorem Sound.awaiting {s : Session} (h : s.Sound) {now : Nat}
    (hwait : (s.burst now).state = .awaitingInput) :
    ∃ e, (s.burst now).engine = some e ∧ ¬ e.status.isHalted ∧
      ¬ (s.burst now).transcript.hasPending := by
  by_cases hstate : s.state.isRunning
  · obtain ⟨e, he⟩ := h.exists_engine hstate
    obtain ⟨e', he', houtcome⟩ := outcome_burst he hstate now
    rw [hwait] at houtcome
    obtain ⟨hlive, hunread⟩ := houtcome.of_awaiting
    exact ⟨e', he', hlive, by simp [Transcript.hasPending, hunread]⟩
  · -- At rest the state is not the one that waits.
    rw [burst_of_not_running hstate] at hwait
    rw [show s.state = .awaitingInput from hwait] at hstate
    exact absurd rfl hstate

/-- Sessions stay in order. After any operations on a new session, in
any order, at any times and with any programs, whether they load or
not, the state of the session tells the truth about its engine, the
session has printed the stop notice once for a run that is finished and
not at all for another, and a session at rest stays as it is. -/
theorem in_order_after_operations (pace : Pace) (ops : List Operation) :
    InOrder ops ((new pace).after ops) ((new pace).chronicle none ops) := by
  have htold := (told_new pace).after ops
  have hnone := (told_new pace).engine_eq_none_iff ops
  -- From here on only the chronicle matters, not how the session has come
  -- about.
  generalize (new pace).after ops = s at htold hnone
  generalize (new pace).chronicle none ops = story at htold
  have hengine : s.engine = none ↔ ∀ op ∈ ops, ¬ op.Loads := by simpa [new] using hnone
  refine ⟨?_, hengine, htold.sound.halted, ⟨htold.engine_eq, htold.transcript_eq⟩, ?_,
    htold.count_eq, ?_, ?_, ?_, ?_, fun _ => htold.sound.awaiting⟩
  · rw [← htold.sound.engine_eq_none_iff, hengine]
  · intro c hc op
    have hsettled := htold.settled op
    have hmem : c.add (op.deeds s) ∈ story.map fun c => c.add (op.deeds s) :=
      Option.mem_map_of_mem _ hc
    refine ⟨?_, hsettled.transcript_eq _ hmem⟩
    rw [hsettled.engine_eq, Option.mem_def.mp hmem, Option.map_some]
  · intro c hc op
    exact (htold.settled op).count_eq _ (Option.mem_map_of_mem _ hc)
  · intro op
    rw [← List.count_pos_iff, (htold.sound.carried op).count_eq]
    split
    · rename_i hends
      simpa using hends
    · rename_i hends
      simpa using hends
  · intro op
    exact (htold.sound.carried op).suffix
  · intro hstate now later
    rw [burst_of_not_running hstate, requestStop_of_not_running hstate, stop_of_not_running hstate]
    exact ⟨⟨rfl, rfl, rfl⟩, ⟨rfl, rfl, rfl⟩, ⟨rfl, rfl, rfl⟩⟩

end Session

end EsoHost
