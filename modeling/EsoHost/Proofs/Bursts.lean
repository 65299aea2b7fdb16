import Mathlib.Logic.Function.Iterate
import EsoHost.Proofs.Restart

/-!
# `EsoHost.Proofs.Bursts`: bursts compose

A host cuts a run into bursts as the clock allows. The cuts do not
matter: bursts with no other operation between them do what one burst
with all their steps does, and that is to make one direct step of the
engine after the other, until it halts or waits.

* `Session.advance_add`: the steps of a burst, made in two parts. If the
  first part ends because the engine halts or waits, the second has
  nothing to do (`Session.resume`).
* `Session.burstOf_burstOf` says it of a session. A burst begins by
  stopping an engine that has to stop, and by ending a wait; what the
  first of two bursts has done there, the second finds done.
* `Session.after_bursts`: any number of bursts, at any times.
* `Session.Stretch` says what direct steps come to, without a loop:
  which step is the last, and why. `Session.stretch_advance` shows that
  it is what a burst makes of its budget.
* `bursts_compose` puts these together.
-/

set_option autoImplicit false

namespace EsoHost

/-! ### Direct steps -/

/-- The engine and the transcript after `n` steps, one after the other. -/
def Engine.afterSteps (n : Nat) (x : Engine × Transcript) : Engine × Transcript :=
  (fun x => x.1.step x.2)^[n] x

/-- The steps that bursts at these times allow together, if the last
burst before them was at time `last`. -/
def Pace.allowance (p : Pace) (last : Nat) : (times : List Nat) → Nat
  | [] => 0
  | now :: times => p.budget (now - last) + p.allowance now times

namespace Session

/-- So many steps can be made without a break: the engine has not halted
before any of them, and waits after none. -/
def Unbroken (x : Engine × Transcript) (n : Nat) : Prop :=
  ∀ k < n, ¬ (Engine.afterSteps k x).1.status.isHalted ∧
    (Engine.afterSteps (k + 1) x).1.status ≠ .awaitingInput

/-- What direct steps from `x` come to if `budget` of them may be made. -/
inductive Stretch (x : Engine × Transcript) (budget : Nat) :
    RunState × Engine × Transcript → Prop where
  /-- All of them are made, and the engine can go on. -/
  | running (unbroken : Unbroken x budget)
      (live : ¬ (Engine.afterSteps budget x).1.status.isHalted) :
      Stretch x budget (.running, Engine.afterSteps budget x)
  /-- The step after the first `n` waits, and no other is made. -/
  | awaiting {n : Nat} (lt : n < budget) (unbroken : Unbroken x n)
      (live : ¬ (Engine.afterSteps n x).1.status.isHalted)
      (waits : (Engine.afterSteps (n + 1) x).1.status = .awaitingInput) :
      Stretch x budget (.awaitingInput, Engine.afterSteps (n + 1) x)
  /-- The engine has halted after `n` steps, and this is announced. -/
  | finished {n : Nat} {reason : HaltReason} (le : n ≤ budget) (unbroken : Unbroken x n)
      (halted : (Engine.afterSteps n x).1.status = .halted reason) :
      Stretch x budget
        (.finished reason, (Engine.afterSteps n x).1, (Engine.afterSteps n x).2.printStop)

section Stretch

variable {e : Engine} {t : Transcript} {budget n : Nat}

/-- No steps have no break among them. -/
theorem unbroken_zero (x : Engine × Transcript) : Unbroken x 0 :=
  fun _ hk => absurd hk (Nat.not_lt_zero _)

/-- One more step in front. -/
theorem Unbroken.succ (h : Unbroken (e.step t) n) (hlive : ¬ e.status.isHalted)
    (hwait : (e.step t).1.status ≠ .awaitingInput) : Unbroken (e, t) (n + 1) := by
  intro k hk
  cases k with
  | zero => exact ⟨hlive, hwait⟩
  | succ k => exact h k (Nat.lt_of_succ_lt_succ hk)

/-- A stretch with one more step in front, which neither halts nor
waits, and one more step to make. -/
theorem Stretch.succ {r : RunState × Engine × Transcript} (h : Stretch (e.step t) budget r)
    (hlive : ¬ e.status.isHalted) (hwait : (e.step t).1.status ≠ .awaitingInput) :
    Stretch (e, t) (budget + 1) r := by
  cases h with
  | running unbroken live => exact .running (unbroken.succ hlive hwait) live
  | @awaiting n lt unbroken live waits =>
    exact .awaiting (n := n + 1) (Nat.succ_lt_succ lt) (unbroken.succ hlive hwait) live waits
  | @finished n reason le unbroken halted =>
    exact .finished (n := n + 1) (Nat.succ_le_succ le) (unbroken.succ hlive hwait) halted

/-- A halt is noticed without a step. -/
theorem stretch_advance_of_halted (h : e.status.isHalted) :
    Stretch (e, t) budget (advance budget e t) := by
  obtain ⟨reason, hreason⟩ := Status.exists_halted h
  rw [advance_of_halted hreason]
  exact .finished (Nat.zero_le _) (unbroken_zero _) hreason

/-- A burst makes direct steps and no others. -/
theorem stretch_advance (budget : Nat) (e : Engine) (t : Transcript) :
    Stretch (e, t) budget (advance budget e t) := by
  induction budget generalizing e t with
  | zero =>
    by_cases hhalted : e.status.isHalted
    · exact stretch_advance_of_halted hhalted
    · rw [advance_zero hhalted]
      exact .running (unbroken_zero _) hhalted
  | succ budget ih =>
    by_cases hhalted : e.status.isHalted
    · exact stretch_advance_of_halted hhalted
    · by_cases hwait : (e.step t).1.status = .awaitingInput
      · rw [advance_succ_of_awaiting hhalted hwait]
        exact .awaiting (Nat.succ_pos _) (unbroken_zero _) hhalted hwait
      · -- Whether this step has halted the engine is for the rest of the burst to see.
        rw [advance_succ hhalted hwait]
        exact (ih _ _).succ hhalted hwait

end Stretch

/-! ### Two bursts -/

/-- What becomes of a burst if more steps may be made: only a run that
goes on makes them. -/
def resume (budget : Nat) : RunState × Engine × Transcript → RunState × Engine × Transcript
  | (.running, e, t) => advance budget e t
  | r => r

/-- There is nothing to resume after a halt. -/
theorem advance_add_of_halted {e : Engine} (h : e.status.isHalted) (a b : Nat) (t : Transcript) :
    advance (a + b) e t = resume b (advance a e t) := by
  obtain ⟨reason, hreason⟩ := Status.exists_halted h
  rw [advance_of_halted hreason, advance_of_halted hreason]
  rfl

/-- Steps that are made in two parts. -/
theorem advance_add (a b : Nat) (e : Engine) (t : Transcript) :
    advance (a + b) e t = resume b (advance a e t) := by
  induction a generalizing e t with
  | zero =>
    by_cases hhalted : e.status.isHalted
    · exact advance_add_of_halted hhalted 0 b t
    · rw [Nat.zero_add, advance_zero hhalted]
      rfl
  | succ a ih =>
    by_cases hhalted : e.status.isHalted
    · exact advance_add_of_halted hhalted (a + 1) b t
    · rw [Nat.succ_add]
      by_cases hwait : (e.step t).1.status = .awaitingInput
      · -- A wait ends the burst, whatever is left of either budget.
        rw [advance_succ_of_awaiting hhalted hwait, advance_succ_of_awaiting hhalted hwait]
        rfl
      · rw [advance_succ hhalted hwait, advance_succ hhalted hwait]
        exact ih _ _

/-- An engine that has to stop halts. -/
theorem stopRequested_of_live {s : Session} {e : Engine}
    (h : ¬ (if s.stopRequested then e.stop else e).status.isHalted) : s.stopRequested = false := by
  cases hstop : s.stopRequested with
  | false => rfl
  | true => simp [hstop, Engine.status_stop] at h

/-- The burst after one that has made its steps. It finds the run
finished, or waiting with nothing to read, or makes more steps. -/
theorem burstOf_of_outcome {s : Session} {e : Engine} {t : Transcript}
    {r : RunState × Engine × Transcript} (h : Outcome e t r) (hstop : s.stopRequested = false)
    (budget : Nat) :
    burstOf { s with state := r.1, engine := some r.2.1, transcript := r.2.2 } budget =
      let (state, e, t) := resume budget r
      { s with state, engine := some e, transcript := t } := by
  have hsame : (if s.stopRequested then e.stop else e) = e := by simp [hstop]
  cases h with
  | finished reason halted => exact burstOf_of_not_running (by simp [RunState.isRunning])
  | awaiting live unread =>
    refine burstOf_of_awaiting rfl rfl ?_ (by simp [Transcript.hasPending, unread])
    show ¬ (if s.stopRequested then e.stop else e).status.isHalted
    rwa [hsame]
  | running live =>
    rw [burstOf_eq_advance budget rfl rfl (by simp)]
    show (let (state, e, t) := advance budget (if s.stopRequested then e.stop else e) t
      { s with state, engine := some e, transcript := t }) = _
    rw [hsame]
    rfl

/-- Two bursts with nothing between them are one. -/
theorem burstOf_burstOf (s : Session) (a b : Nat) :
    (s.burstOf a).burstOf b = s.burstOf (a + b) := by
  by_cases hstate : s.state.isRunning
  · cases he : s.engine with
    | none => simp only [burstOf, he]
    | some e =>
      by_cases hready : s.state = .awaitingInput →
          (if s.stopRequested then e.stop else e).status.isHalted ∨ s.transcript.hasPending
      · rw [burstOf_eq_advance a he hstate hready, burstOf_eq_advance (a + b) he hstate hready]
        by_cases hhalted : (if s.stopRequested then e.stop else e).status.isHalted
        · obtain ⟨reason, hreason⟩ := Status.exists_halted hhalted
          rw [advance_of_halted hreason, advance_of_halted hreason]
          exact burstOf_of_not_running (by simp [RunState.isRunning])
        · -- The first burst goes on, waits or finishes, and the second resumes
          -- what is left to resume.
          rw [advance_add]
          exact burstOf_of_outcome (outcome_advance a _ _) (stopRequested_of_live hhalted) b
      · -- The run waits, and neither burst changes that.
        simp only [Classical.not_imp, not_or] at hready
        obtain ⟨hwait, hlive, hempty⟩ := hready
        rw [burstOf_of_awaiting he hwait hlive hempty, burstOf_of_awaiting he hwait hlive hempty,
          burstOf_of_awaiting he hwait hlive hempty]
  · rw [burstOf_of_not_running hstate, burstOf_of_not_running hstate,
      burstOf_of_not_running hstate]

/-! ### Any number of bursts -/

/-- The time of the last burst only serves to find the budget of the
next. -/
theorem burstOf_lastBurst (s : Session) (last budget : Nat) :
    burstOf { s with lastBurst := last } budget = { s.burstOf budget with lastBurst := last } := by
  obtain ⟨pace, t, engine, state, wanted, lastBurst⟩ := s
  cases engine with
  | none => rfl
  | some e =>
    simp only [burstOf]
    generalize (if wanted then e.stop else e) = e'
    split
    · rfl
    · split <;> rfl

/-- Bursts with nothing between them are one burst that may make all
their steps. -/
theorem after_bursts (s : Session) (now : Nat) (later : List Nat) :
    s.after ((now :: later).map .burst)
      = { s.burstOf (s.pace.allowance s.lastBurst (now :: later)) with
          lastBurst := later.getLastD now } := by
  induction later generalizing s now with
  | nil => rfl
  | cons next later ih =>
    show (s.burst now).after ((next :: later).map .burst) = _
    rw [ih, pace_burst]
    -- The first burst sets the time from which the second one counts, and
    -- that is all the later ones see of it.
    show { burstOf { s.burstOf (s.pace.budget (now - s.lastBurst)) with lastBurst := now }
      (s.pace.allowance now (next :: later)) with lastBurst := later.getLastD next } = _
    rw [burstOf_lastBurst, burstOf_burstOf, List.getLastD_cons]
    rfl

/-- What bursts do to a session if they may make `budget` steps. -/
inductive Course (s : Session) (budget : Nat) (s' : Session) : Prop where
  /-- No run is in progress, and nothing happens. -/
  | rest (atRest : ¬ s.state.isRunning) (same : s.Unchanged s')
  /-- The run waits for input that has not come, and nothing happens. -/
  | waiting {e : Engine} (engine_eq : s.engine = some e) (state_eq : s.state = .awaitingInput)
      (live : ¬ e.status.isHalted) (unstopped : s.stopRequested = false)
      (empty : ¬ s.transcript.hasPending) (same : s.Unchanged s')
  /-- The engine makes direct steps. It is told to stop first if the host
  wants it. -/
  | steps {e e' : Engine} (engine_eq : s.engine = some e) (running : s.state.isRunning)
      (ready : s.state = .awaitingInput →
        e.status.isHalted ∨ s.stopRequested ∨ s.transcript.hasPending)
      (engine_eq' : s'.engine = some e')
      (stretch : Stretch (if s.stopRequested then e.stop else e, s.transcript) budget
        (s'.state, e', s'.transcript))

/-- What a burst does, whatever its budget and whatever time it is
entered at. -/
theorem Sound.course {s : Session} (h : s.Sound) (budget last : Nat) :
    s.Course budget { s.burstOf budget with lastBurst := last } := by
  by_cases hstate : s.state.isRunning
  · obtain ⟨e, he⟩ := h.exists_engine hstate
    by_cases hready : s.state = .awaitingInput →
        (if s.stopRequested then e.stop else e).status.isHalted ∨ s.transcript.hasPending
    · rw [burstOf_eq_advance budget he hstate hready]
      refine .steps he hstate (fun hwait => ?_) rfl (stretch_advance budget _ _)
      -- An engine that has to stop is ready whether or not it had halted
      -- before.
      cases hstop : s.stopRequested with
      | true => exact Or.inr (Or.inl rfl)
      | false =>
        rw [hstop] at hready
        exact (hready hwait).imp_right Or.inr
    · simp only [Classical.not_imp, not_or] at hready
      obtain ⟨hwait, hlive, hempty⟩ := hready
      rw [burstOf_of_awaiting he hwait hlive hempty]
      have hstop := stopRequested_of_live hlive
      refine .waiting he hwait ?_ hstop hempty ⟨rfl, rfl, rfl⟩
      simpa [hstop] using hlive
  · rw [burstOf_of_not_running hstate]
    exact .rest hstate ⟨rfl, rfl, rfl⟩

/-- After a burst the run is finished exactly if the engine has halted. -/
theorem Sound.finished_burst_iff {s : Session} (h : s.Sound) (now : Nat) (reason : HaltReason) :
    (s.burst now).state = .finished reason ↔
      ∃ e, (s.burst now).engine = some e ∧ e.status = .halted reason := by
  have hsound : (s.burst now).Sound := (h.carried_burst now).sound
  refine ⟨hsound.halted reason, ?_⟩
  rintro ⟨e, he, hhalted⟩
  by_cases hstate : s.state.isRunning
  · obtain ⟨e₀, he₀⟩ := h.exists_engine hstate
    obtain ⟨e', he', houtcome⟩ := outcome_burst he₀ hstate now
    obtain rfl : e' = e := Option.some.inj (he'.symm.trans he)
    have hlook : e'.status.isHalted := by rw [hhalted]; rfl
    generalize (s.burst now).state = state, (s.burst now).transcript = t at houtcome
    cases houtcome with
    | finished reason' halted => rw [Status.halted.inj (halted.symm.trans hhalted)]
    | awaiting live _ => exact absurd hlook live
    | running live => exact absurd hlook live
  · -- The burst has changed nothing, and the state told the truth before.
    rw [burst_of_not_running hstate] at he ⊢
    show s.state = .finished reason
    cases hbefore : s.state with
    | idle => exact absurd ((h.engine_eq_none_iff.mpr hbefore).symm.trans he) (by simp)
    | finished reason' =>
      obtain ⟨e', he', hhalted'⟩ := h.halted reason' hbefore
      obtain rfl : e' = e := Option.some.inj (he'.symm.trans he)
      rw [Status.halted.inj (hhalted'.symm.trans hhalted)]
    | running => exact absurd (by rw [hbefore]; rfl) hstate
    | awaitingInput => exact absurd (by rw [hbefore]; rfl) hstate

/-- Bursts compose. After any operations on a new session, two bursts
that may make `a` and `b` steps do what one burst of `a + b` steps
does, and bursts at any times do what one burst with the sum of their
budgets does. What they do is to take the engine through direct steps.
No step is left out, only a halt or a wait keeps the engine from using
up the budgets, and the burst in which the engine halts is the one that
finishes the run. -/
theorem bursts_compose (pace : Pace) (past : List Operation) :
    let s := (new pace).after past
    (∀ a b, (s.burstOf a).burstOf b = s.burstOf (a + b)) ∧
    (∀ now later, s.after ((now :: later).map .burst)
      = { s.burstOf (pace.allowance s.lastBurst (now :: later)) with
          lastBurst := later.getLastD now }) ∧
    (∀ now later, s.Course (pace.allowance s.lastBurst (now :: later))
      (s.after ((now :: later).map .burst))) ∧
    (∀ now reason, (s.burst now).state = .finished reason ↔
      ∃ e, (s.burst now).engine = some e ∧ e.status = .halted reason) := by
  intro s
  have hsound : s.Sound := ((told_new pace).after past).sound
  have hpace : s.pace = pace := pace_after (new pace) past
  have hbursts : ∀ now later, s.after ((now :: later).map .burst)
      = { s.burstOf (pace.allowance s.lastBurst (now :: later)) with
          lastBurst := later.getLastD now } := by
    intro now later
    rw [after_bursts, hpace]
  refine ⟨s.burstOf_burstOf, hbursts, fun now later => ?_, hsound.finished_burst_iff⟩
  rw [hbursts]
  exact hsound.course _ _

end Session

end EsoHost
