import EsoHost.Proofs.Delivery
import EsoHost.Proofs.Waiting

/-!
# `EsoHost.Proofs.Staging`: a staged run waits once

A staged run gets its input before its first step. Its session waits
until a text has been accepted, and from then on it must never wait
again, whatever the program reads. `staged_run_waits_once` shows both,
for every order of the operations of the host.

* `Session.Shut`: how the run stands as long as no text was accepted.
  Nothing has been done to it, or it is over before its first step.
  `Session.Shut.apply` is the step lemma; it also counts the steps of
  the engine, of which there are none.
* `Session.Ready`: a text was accepted, and if the session still waits
  there is something to read. `Session.Ready.burst`: the next burst
  sees it, and ends the waiting.
* `Session.Going`: the session does not wait. It stays that way, since
  no step of a staged run waits (`Engine.status_step_of_staged`).
-/

set_option autoImplicit false

namespace EsoHost

/-! ### Staged transcripts -/

/-- A program does not change the mode. -/
theorem Transcript.UsedOnce.mode_eq {t t' : Transcript} (h : t.UsedOnce t') :
    t'.mode = t.mode := by
  obtain rfl | ⟨use, huse, rfl⟩ := h
  · rfl
  · exact (use.takes_append huse t).2.1

/-- Nor does its user. -/
theorem Transcript.mode_offer (t : Transcript) (text : String) :
    (t.offer text).2.mode = t.mode := by
  rcases t.offer_cases text with ⟨-, hoffer⟩ | ⟨-, -, hoffer⟩ | ⟨-, -, -, hmode, -⟩
  · rw [hoffer]
  · rw [hoffer]
  · exact hmode

/-- An accepted text gives something to read. -/
theorem Transcript.hasPending_of_accepted {t : Transcript} {text : String}
    (h : (t.offer text).1 = .accepted) : (t.offer text).2.hasPending := by
  rcases t.offer_cases text with ⟨-, hoffer⟩ | ⟨-, -, hoffer⟩ |
    ⟨hextends, -, -, -, -, added, happend, hunread⟩
  · rw [hoffer] at h
    cases h
  · rw [hoffer] at h
    cases h
  · -- A record that is accepted differs from the contents, so it adds something to them.
    have hadded : added ≠ [] := by
      rintro rfl
      rw [List.append_nil] at happend
      exact hextends.2 (String.toList_injective happend)
    rw [hasPending, hunread]
    split
    · simp
    · simpa using hadded

/-- A text that is not accepted takes nothing away. -/
theorem Transcript.hasPending_offer {t : Transcript} (h : t.hasPending) (text : String) :
    (t.offer text).2.hasPending := by
  by_cases haccepted : (t.offer text).1 = .accepted
  · exact hasPending_of_accepted haccepted
  · rw [offer_of_not_accepted haccepted]
    exact h

/-- No step of a staged run waits. -/
theorem Engine.status_step_of_staged (e : Engine) {t : Transcript} (h : t.mode = .staged) :
    (e.step t).1.status ≠ .awaitingInput := by
  intro hwait
  obtain ⟨-, hmode, -⟩ := step_of_wait hwait
  rw [h] at hmode
  cases hmode

/-- Nothing that is done to a run changes its mode. -/
theorem Deed.mode_replay (deeds : List Deed) (s : Engine × Transcript) :
    (replay deeds s).2.mode = s.2.mode := by
  induction deeds generalizing s with
  | nil => rfl
  | cons deed deeds ih =>
    have hdeed : (deed.apply s).2.mode = s.2.mode := by
      cases deed with
      | step => exact (s.1.usedOnce_step s.2).mode_eq
      | halt => rfl
      | offer text => exact s.2.mode_offer text
      | notice => rfl
    exact (ih (deed.apply s)).trans hdeed

/-! ### Sessions that wait, and sessions that are over -/

/-- A run that waits is in progress. -/
theorem RunState.isRunning_of_awaiting {state : RunState} (h : state = .awaitingInput) :
    state.isRunning := by
  rw [h]
  rfl

/-- A run that is finished is not. -/
theorem RunState.not_isRunning_of_finished {state : RunState} {reason : HaltReason}
    (h : state = .finished reason) : ¬ state.isRunning := by
  rw [h]
  exact Bool.false_ne_true

namespace Session

/-- A burst of a staged run goes on to its end. -/
theorem advance_of_staged (budget : Nat) (e : Engine) {t : Transcript} (h : t.mode = .staged) :
    (advance budget e t).1 ≠ .awaitingInput := by
  induction budget generalizing e t with
  | zero =>
    unfold advance
    split <;> simp
  | succ budget ih =>
    by_cases hhalted : e.status.isHalted
    · obtain ⟨reason, hreason⟩ := Status.exists_halted hhalted
      rw [advance_of_halted hreason]
      simp
    · -- The third way for a burst to end, a step that waits, is not open to a
      -- staged run.
      rw [advance_succ hhalted (e.status_step_of_staged h)]
      exact ih _ ((e.usedOnce_step t).mode_eq.trans h)

/-! ### Steps and offers of a sequence of operations -/

namespace Operation

/-- The operation is meant to end the run at hand. -/
def Stops : Operation → Prop
  | requestStop | stop _ _ | run _ _ _ => True
  | burst _ | offer _ => False

/-- The operation is an offer, and the session accepts it. -/
def Accepted (s : Session) : Operation → Prop
  | offer text => (s.offer text).1 = .accepted
  | _ => False

instance (s : Session) : (op : Operation) → Decidable (op.Accepted s)
  | offer text => inferInstanceAs (Decidable ((s.offer text).1 = .accepted))
  | run _ _ _ | burst _ | requestStop | stop _ _ => isFalse id

end Operation

/-- One of the operations is an offer that is accepted. -/
def Accepts (s : Session) : List Operation → Prop
  | [] => False
  | op :: ops => op.Accepted s ∨ (op.apply s).Accepts ops

instance Accepts.decidable (s : Session) : (ops : List Operation) → Decidable (s.Accepts ops)
  | [] => isFalse id
  | op :: ops =>
    have := Accepts.decidable (op.apply s) ops
    inferInstanceAs (Decidable (op.Accepted s ∨ (op.apply s).Accepts ops))

/-- How many steps the engine makes during some operations. -/
def stepsDuring (s : Session) : List Operation → Nat
  | [] => 0
  | op :: ops => (op.deeds s).count .step + (op.apply s).stepsDuring ops

/-- What a burst does first has as many steps in it as the burst makes.
-/
theorem count_step_effort (s : Session) (now : Nat) :
    (s.effort now).count .step = s.burstSteps (s.pace.budget (now - s.lastBurst)) := by
  rw [effort, List.count_append, List.count_replicate_self]
  split <;> simp

/-- The steps that a burst tells are those that it makes. -/
theorem count_step_burst (s : Session) (now : Nat) :
    ((Operation.burst now).deeds s).count .step
      = if s.state.isRunning then s.burstSteps (s.pace.budget (now - s.lastBurst)) else 0 := by
  rw [Operation.deeds]
  split
  · rw [List.count_append, count_step_effort]
    split <;> simp
  · rfl

/-- Only a burst makes steps. -/
theorem count_step_of_not_burst {op : Operation} (h : ∀ now, op ≠ .burst now) (s : Session) :
    (op.deeds s).count .step = 0 := by
  cases op with
  | burst now => exact absurd rfl (h now)
  | requestStop => rfl
  | offer text => rfl
  | stop now later =>
    rw [Operation.deeds]
    split <;> rfl
  | run mode now load =>
    rw [Operation.deeds]
    split <;> rfl

/-- A burst that finds the engine halted, or has just told it to stop,
makes no step. -/
theorem burstSteps_of_halted {s : Session} {e : Engine} (he : s.engine = some e)
    (h : (if s.stopRequested then e.stop else e).status.isHalted) (budget : Nat) :
    s.burstSteps budget = 0 := by
  simp only [burstSteps, he]
  generalize (if s.stopRequested then e.stop else e) = e' at h ⊢
  split
  · rfl
  · cases budget with
    | zero => rfl
    | succ budget => rw [advanceSteps, if_pos h]

/-- A run that waits with nothing to read makes no step. -/
theorem burst_of_awaiting {s : Session} {e : Engine} (he : s.engine = some e)
    (hstate : s.state = .awaitingInput)
    (hlive : ¬ (if s.stopRequested then e.stop else e).status.isHalted)
    (hpending : ¬ s.transcript.hasPending) (now : Nat) :
    s.burst now = { s with lastBurst := now } ∧
      s.burstSteps (s.pace.budget (now - s.lastBurst)) = 0 := by
  refine ⟨by simp only [burst, burstOf_of_awaiting he hstate hlive hpending], ?_⟩
  simp only [burstSteps, he]
  rw [if_pos ⟨hstate, by simpa using hlive, by simpa using hpending⟩]

/-! ### Before the input -/

/-- How a staged run of `engine` stands that has had the operations in
`past`, none of which has given it its input. -/
inductive Shut (engine : Engine) (past : List Operation) (s : Session) : Prop where
  /-- It waits, and nothing was done to it. -/
  | waiting (state_eq : s.state = .awaitingInput) (engine_eq : s.engine = some engine)
      (transcript_eq : s.transcript = .fresh .staged)
      (request : s.stopRequested → ∃ op ∈ past, op.Stops)
  /-- It is over: the engine has halted before its first step, by itself
  or because the host wanted it, and only the notice was printed. -/
  | ended (reason : HaltReason) (state_eq : s.state = .finished reason)
      (engine_eq : s.engine = some engine.stop) (halted : engine.stop.status = .halted reason)
      (transcript_eq : s.transcript = (Transcript.fresh .staged).printStop)
      (cause : engine.status.isHalted ∨ ∃ op ∈ past, op.Stops)

section Shut

variable {engine : Engine} {past : List Operation} {s : Session}

/-- The run is stopped before its input has come. -/
theorem Shut.stop (h : Shut engine past s) {op : Operation} (hop : op.Stops) (now : Nat)
    (later : List Nat) : Shut engine (past ++ [op]) (s.stop (now :: later)) := by
  have hcause : ∃ op' ∈ past ++ [op], op'.Stops := ⟨op, by simp, hop⟩
  cases h with
  | waiting hstate he ht _ =>
    obtain ⟨reason, hreason⟩ := Status.exists_halted engine.status.isHalted_stop
    rw [stop_cons_of_running he (RunState.isRunning_of_awaiting hstate) hreason]
    exact .ended reason rfl rfl (engine.status_stop.trans hreason)
      (congrArg Transcript.printStop ht) (Or.inr hcause)
  | ended reason hstate he hhalted ht _ =>
    rw [stop_of_not_running (RunState.not_isRunning_of_finished hstate)]
    exact .ended reason hstate he hhalted ht (Or.inr hcause)

/-- More operations after which the run still stands the same. -/
theorem Shut.later (h : Shut engine past s) (op : Operation) : Shut engine (past ++ [op]) s := by
  have hpast : (∃ op' ∈ past, op'.Stops) → ∃ op' ∈ past ++ [op], op'.Stops := by
    rintro ⟨op', hmem, hstops⟩
    exact ⟨op', List.mem_append_left _ hmem, hstops⟩
  cases h with
  | waiting hstate he ht hrequest => exact .waiting hstate he ht fun hstop => hpast (hrequest hstop)
  | ended reason hstate he hhalted ht hcause =>
    exact .ended reason hstate he hhalted ht (hcause.imp_right hpast)

/-- A burst makes no step. It finishes the run if the engine has halted
or the host wants it to stop, and else changes nothing. -/
theorem Shut.burst (h : Shut engine past s) (now : Nat) :
    ((Operation.burst now).deeds s).count .step = 0 ∧ Shut engine past (s.burst now) := by
  rw [count_step_burst]
  cases h with
  | waiting hstate he ht hrequest =>
    have hrunning := RunState.isRunning_of_awaiting hstate
    rw [if_pos hrunning]
    by_cases hhalted : (if s.stopRequested then engine.stop else engine).status.isHalted
    · obtain ⟨reason, hreason⟩ := Status.exists_halted hhalted
      refine ⟨burstSteps_of_halted he hhalted _, ?_⟩
      rw [burst_of_halted he hrunning hreason]
      -- Both causes of the halt have to be told apart, since only one of them
      -- lies in the past of the session.
      cases hstop : s.stopRequested with
      | true =>
        rw [hstop] at hreason
        exact .ended reason rfl rfl hreason (congrArg Transcript.printStop ht)
          (Or.inr (hrequest hstop))
      | false =>
        rw [hstop] at hreason
        -- It has halted by itself, so that a stop would change nothing.
        have hsame : engine.stop = engine := Engine.stop_of_halted hreason
        refine .ended reason rfl (by rw [hsame]; rfl) (by rw [hsame]; exact hreason)
          (congrArg Transcript.printStop ht) (Or.inl ?_)
        rw [show engine.status = .halted reason from hreason]
        rfl
    · -- This is the gate: a fresh transcript has nothing to read.
      have hpending : ¬ s.transcript.hasPending := by rw [ht]; decide
      obtain ⟨hburst, hsteps⟩ := burst_of_awaiting he hstate hhalted hpending now
      rw [hburst]
      exact ⟨hsteps, .waiting hstate he ht hrequest⟩
  | ended reason hstate he hhalted ht hcause =>
    have hrest := RunState.not_isRunning_of_finished hstate
    rw [if_neg hrest, burst_of_not_running hrest]
    exact ⟨rfl, .ended reason hstate he hhalted ht hcause⟩

/-- One operation more that does not give the run its input. -/
theorem Shut.apply (h : Shut engine past s) {op : Operation} (hop : ¬ op.Loads)
    (hnot : ¬ op.Accepted s) :
    (op.deeds s).count .step = 0 ∧ Shut engine (past ++ [op]) (op.apply s) := by
  cases op with
  | burst now =>
    obtain ⟨hsteps, hshut⟩ := h.burst now
    exact ⟨hsteps, hshut.later _⟩
  | requestStop =>
    refine ⟨rfl, ?_⟩
    cases h with
    | waiting hstate he ht _ =>
      have hrequest : s.requestStop = { s with stopRequested := true } := by
        rw [requestStop, if_pos (RunState.isRunning_of_awaiting hstate)]
      show Shut engine _ s.requestStop
      rw [hrequest]
      exact .waiting hstate he ht fun _ => ⟨.requestStop, by simp, trivial⟩
    | ended reason hstate he hhalted ht hcause =>
      show Shut engine _ s.requestStop
      rw [requestStop_of_not_running (RunState.not_isRunning_of_finished hstate)]
      exact (Shut.ended reason hstate he hhalted ht hcause).later _
  | stop now later =>
    have hstops : (Operation.stop now later).Stops := trivial
    exact ⟨count_step_of_not_burst (by simp) s, h.stop hstops now later⟩
  | offer text =>
    refine ⟨rfl, ?_⟩
    -- The offer was not accepted, so the gate stays shut.
    have hsame : (s.offer text).2 = s := by
      show { s with transcript := (s.transcript.offer text).2 } = s
      rw [Transcript.offer_of_not_accepted hnot]
    show Shut engine _ (s.offer text).2
    rw [hsame]
    exact h.later _
  | run mode now load =>
    -- A load that fails has already stopped the run that it was to replace.
    have hstops : (Operation.run mode now load).Stops := trivial
    rw [Operation.apply_of_not_loads hop]
    exact ⟨count_step_of_not_burst (by simp) s, h.stop hstops now []⟩

/-- Any number of operations, none of which gives the run its input. -/
theorem Shut.after (h : Shut engine past s) {ops : List Operation} (hops : ∀ op ∈ ops, ¬ op.Loads)
    (hnot : ¬ s.Accepts ops) :
    s.stepsDuring ops = 0 ∧ Shut engine (past ++ ops) (s.after ops) := by
  induction ops generalizing past s with
  | nil => exact ⟨rfl, by simpa [Session.after] using h⟩
  | cons op ops ih =>
    rw [Accepts, not_or] at hnot
    obtain ⟨hsteps, hshut⟩ := h.apply (hops op List.mem_cons_self) hnot.1
    obtain ⟨hrest, hend⟩ := ih hshut (fun op hmem => hops op (List.mem_cons_of_mem _ hmem)) hnot.2
    rw [List.append_assoc, List.singleton_append] at hend
    exact ⟨by rw [stepsDuring, hsteps, hrest], hend⟩

end Shut

/-! ### After the input -/

/-- What every operation keeps that starts no run holds after any number
of them. -/
theorem after_induct {P : Session → Prop}
    (hstep : ∀ (s : Session) (op : Operation), P s → ¬ op.Loads → P (op.apply s)) {s : Session}
    {ops : List Operation} (h : P s) (hops : ∀ op ∈ ops, ¬ op.Loads) : P (s.after ops) := by
  induction ops generalizing s with
  | nil => exact h
  | cons op ops ih =>
    exact ih (hstep s op h (hops op List.mem_cons_self)) fun op hmem =>
      hops op (List.mem_cons_of_mem _ hmem)

/-- A staged run, in progress or finished. -/
structure Staged (s : Session) : Prop extends Loaded s where
  mode_eq : s.transcript.mode = .staged

/-- If the session waits, there is something to read. -/
structure Ready (s : Session) : Prop extends Staged s where
  hasPending : s.state = .awaitingInput → s.transcript.hasPending

/-- The session does not wait. -/
structure Going (s : Session) : Prop extends Staged s where
  state_ne : s.state ≠ .awaitingInput

section Ready

variable {s : Session} {op : Operation} {ops : List Operation}

/-- No operation changes the mode of a run. -/
theorem Staged.apply (h : s.Staged) (hop : ¬ op.Loads) : (op.apply s).Staged := by
  refine ⟨h.toLoaded.apply op hop, ?_⟩
  obtain ⟨e, he⟩ := h.engine
  obtain ⟨e', -, hreplay⟩ := (h.sound.carried op).replay_eq e he
  have hmode := Deed.mode_replay (op.deeds s) (e, s.transcript)
  rw [hreplay] at hmode
  rw [Operation.apply_of_not_loads hop]
  exact hmode.trans h.mode_eq

/-- A run that was stopped is over. -/
theorem Loaded.not_isRunning_stop (h : s.Loaded) (now : Nat) (later : List Nat) :
    ¬ (s.stop (now :: later)).state.isRunning := by
  by_cases hstate : s.state.isRunning
  · obtain ⟨e, he⟩ := h.engine
    obtain ⟨reason, hreason⟩ := Status.exists_halted e.status.isHalted_stop
    rw [stop_cons_of_running he hstate hreason]
    simp [RunState.isRunning]
  · rwa [stop_of_not_running hstate]

/-- In particular it does not wait. -/
theorem Loaded.state_stop (h : s.Loaded) (now : Nat) (later : List Nat) :
    (s.stop (now :: later)).state ≠ .awaitingInput :=
  fun hwait => h.not_isRunning_stop now later (RunState.isRunning_of_awaiting hwait)

/-- Only a burst makes a session wait that did not. An operation that
leaves it waiting does not touch the transcript, unless it is an
offer. -/
theorem Loaded.of_awaiting_apply (h : s.Loaded) (hop : ¬ op.Loads) (hburst : ∀ now, op ≠ .burst now)
    (hwait : (op.apply s).state = .awaitingInput) :
    s.state = .awaitingInput ∧
      ((op.apply s).transcript = s.transcript ∨ ∃ text, op = .offer text) := by
  cases op with
  | burst now => exact absurd rfl (hburst now)
  | requestStop =>
    simp only [Operation.apply, requestStop] at hwait ⊢
    split at hwait
    · rename_i hrunning
      rw [if_pos hrunning]
      exact ⟨hwait, Or.inl rfl⟩
    · rename_i hrest
      rw [if_neg hrest]
      exact ⟨hwait, Or.inl rfl⟩
  | stop now later => exact absurd hwait (h.state_stop now later)
  | offer text => exact ⟨hwait, Or.inr ⟨text, rfl⟩⟩
  | run mode now load =>
    rw [Operation.apply_of_not_loads hop] at hwait
    exact absurd hwait (h.state_stop now [])

/-- The burst after the input ends the waiting. -/
theorem Ready.burst (h : s.Ready) (now : Nat) : (s.burst now).state ≠ .awaitingInput := by
  by_cases hstate : s.state.isRunning
  · obtain ⟨e, he⟩ := h.engine
    have hburst := burstOf_eq_advance (s.pace.budget (now - s.lastBurst)) he hstate
      fun hwait => Or.inr (h.hasPending hwait)
    show (s.burstOf (s.pace.budget (now - s.lastBurst))).state ≠ .awaitingInput
    rw [hburst]
    exact advance_of_staged _ _ h.mode_eq
  · rw [burst_of_not_running hstate]
    intro hwait
    exact hstate (RunState.isRunning_of_awaiting hwait)

/-- A session that does not wait is ready. -/
theorem Going.ready (h : s.Going) : s.Ready :=
  ⟨h.toStaged, fun hwait => absurd hwait h.state_ne⟩

/-- One operation more. -/
theorem Ready.apply (h : s.Ready) (hop : ¬ op.Loads) : (op.apply s).Ready := by
  refine ⟨h.toStaged.apply hop, fun hwait => ?_⟩
  -- A burst ends the waiting. Any other operation takes nothing away that
  -- there is to read.
  by_cases hburst : ∃ now, op = .burst now
  · obtain ⟨now, rfl⟩ := hburst
    exact absurd hwait (h.burst now)
  · obtain ⟨hbefore, hsame | ⟨text, rfl⟩⟩ :=
      h.of_awaiting_apply hop (fun now heq => hburst ⟨now, heq⟩) hwait
    · rw [hsame]
      exact h.hasPending hbefore
    · exact Transcript.hasPending_offer (h.hasPending hbefore) text

/-- A session that does not wait never does so again. -/
theorem Going.apply (h : s.Going) (hop : ¬ op.Loads) : (op.apply s).Going := by
  refine ⟨h.toStaged.apply hop, fun hwait => ?_⟩
  by_cases hburst : ∃ now, op = .burst now
  · obtain ⟨now, rfl⟩ := hburst
    exact h.ready.burst now hwait
  · exact h.state_ne (h.of_awaiting_apply hop (fun now heq => hburst ⟨now, heq⟩) hwait).1

/-- So it is after any operations. -/
theorem Ready.after (h : s.Ready) (hops : ∀ op ∈ ops, ¬ op.Loads) : (s.after ops).Ready :=
  after_induct (fun _ _ h hop => h.apply hop) h hops

/-- However many operations come. -/
theorem Going.after (h : s.Going) (hops : ∀ op ∈ ops, ¬ op.Loads) : (s.after ops).Going :=
  after_induct (fun _ _ h hop => h.apply hop) h hops

/-- Once a text was accepted, the run is ready. -/
theorem Staged.ready_after (h : s.Staged) (hops : ∀ op ∈ ops, ¬ op.Loads)
    (haccepts : s.Accepts ops) : (s.after ops).Ready := by
  induction ops generalizing s with
  | nil => exact haccepts.elim
  | cons op ops ih =>
    have hop := hops op List.mem_cons_self
    have hrest : ∀ op ∈ ops, ¬ op.Loads := fun op hmem => hops op (List.mem_cons_of_mem _ hmem)
    rcases haccepts with haccepted | hlater
    · -- This offer is the first that is accepted; the rest only keeps what it gave.
      have hready : (op.apply s).Ready := by
        refine ⟨h.apply hop, fun _ => ?_⟩
        cases op with
        | offer text => exact Transcript.hasPending_of_accepted haccepted
        | _ => exact haccepted.elim
      exact hready.after hrest
    · exact ih (h.apply hop) hrest hlater

end Ready

end Session

/-- A staged run waits for its input, once. Start it on any session, and
make any operations that do not start another run. As long as none of
the offered texts is accepted, the engine makes no step and the program
prints nothing: the session waits, or the run is over because the engine
had halted by itself or the host wanted it to stop. From the first burst
after an accepted text on, the session does not wait again. -/
theorem staged_run_waits_once (s : Session) (now : Nat) (engine : Engine)
    (ops : List Session.Operation) (hops : ∀ op ∈ ops, ¬ op.Loads) :
    let start := (s.run .staged now (.ok engine)).2
    (¬ start.Accepts ops → start.stepsDuring ops = 0 ∧ Session.Shut engine ops (start.after ops)) ∧
    (∀ early time later, ops = early ++ .burst time :: later → start.Accepts early →
      (start.after ops).state ≠ .awaitingInput) := by
  intro start
  refine ⟨fun hnot => ?_, ?_⟩
  · have hshut : Session.Shut engine [] start := .waiting rfl rfl rfl (by simp [start, Session.run])
    exact hshut.after hops hnot
  · rintro early time later rfl haccepts
    have hstaged : start.Staged := ⟨s.loaded_run .staged now engine, rfl⟩
    have hearly : ∀ op ∈ early, ¬ op.Loads := fun op hmem => hops op (by simp [hmem])
    have hlater : ∀ op ∈ later, ¬ op.Loads := fun op hmem => hops op (by simp [hmem])
    have hready := hstaged.ready_after hearly haccepts
    -- The burst turns `Ready` into `Going`, and `Going` is kept.
    have hgoing : ((start.after early).burst time).Going :=
      ⟨(hready.apply (hops (.burst time) (by simp))).toStaged, hready.burst time⟩
    rw [show start.after (early ++ .burst time :: later)
      = ((start.after early).burst time).after later from List.foldl_append]
    exact (hgoing.after hlater).state_ne

/-- A program that reads and prints: it stays shut when it is offered a
text that is no input and then asked to stop, and does not wait again
when it has got its input. -/
theorem echo_waits_once :
    let start := ((Session.new ⟨1000, 1⟩).run .staged 0 (.ok Terminal.echo)).2
    let closed : List Session.Operation := [.burst 1000000, .offer "no\n", .requestStop]
    let given : List Session.Operation := [.burst 1000000, .offer "### Input:\n\nx\n"]
    ((∀ op ∈ closed, ¬ op.Loads) ∧ ¬ start.Accepts closed ∧ start.stepsDuring closed = 0 ∧
      Session.Shut Terminal.echo closed (start.after closed)) ∧
    ((∀ op ∈ given ++ [.burst 1000000, .burst 2000000], ¬ op.Loads) ∧ start.Accepts given ∧
      (start.after (given ++ [.burst 1000000, .burst 2000000])).state ≠ .awaitingInput) := by
  intro start closed given
  have hclosed : ∀ op ∈ closed, ¬ op.Loads := by simp [closed, Session.Operation.Loads]
  have hgiven : ∀ op ∈ given ++ [.burst 1000000, .burst 2000000], ¬ op.Loads := by
    simp [given, Session.Operation.Loads]
  have hnot : ¬ start.Accepts closed := by decide +kernel
  have haccepts : start.Accepts given := by decide +kernel
  exact ⟨⟨hclosed, hnot, (staged_run_waits_once _ 0 Terminal.echo closed hclosed).1 hnot⟩, hgiven,
    haccepts, (staged_run_waits_once _ 0 Terminal.echo _ hgiven).2 given 1000000 [.burst 2000000]
      rfl haccepts⟩

end EsoHost
