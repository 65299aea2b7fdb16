import EsoHost.Engine

/-!
# `EsoHost.Session`: one engine at a time, in bursts

A session runs one engine after the other on one transcript. The host
calls `Session.burst` again and again; each burst makes as many steps
as the time since the last one allows. A session that waits for input
makes no step until a record has been accepted.

Times are nanoseconds on any clock. A clock that goes backwards counts
as one that stands still.
-/

set_option autoImplicit false

namespace EsoHost

/-! ### Pace -/

/-- How fast a session runs. -/
structure Pace where
  /-- Steps for each millisecond. -/
  opsPerMs : UInt32 := 512
  /-- The longest burst, in milliseconds' worth of steps. -/
  burstMultiplier : UInt32 := 16
  deriving DecidableEq, Repr

namespace Pace

/-- The most steps that a burst makes. -/
def maxBurst (p : Pace) : Nat := p.opsPerMs.toNat * p.burstMultiplier.toNat

/-- The number of steps that `elapsed` nanoseconds allow. The time
counts in whole microseconds, of which the lowest 64 bits are taken.
The product is kept within 64 bits too, and no burst exceeds
`maxBurst`. -/
def budget (p : Pace) (elapsed : Nat) : Nat :=
  let micros := elapsed / 1000 % UInt64.size
  min (min (micros * p.opsPerMs.toNat) 0xFFFFFFFFFFFFFFFF / 1000) p.maxBurst

end Pace

/-! ### Sessions -/

/-- What a session is doing. -/
inductive RunState where
  /-- Nothing was loaded yet. -/
  | idle
  | running
  /-- No step is made before a record is accepted. -/
  | awaitingInput
  | finished (reason : HaltReason)
  deriving DecidableEq, Repr

/-- A run is in progress. -/
def RunState.isRunning : RunState → Bool
  | running | awaitingInput => true
  | idle | finished _ => false

/-- An engine, its transcript, and what the host has to know. -/
structure Session where
  pace : Pace
  transcript : Transcript
  engine : Option Engine
  state : RunState
  /-- The host wants the run to stop. -/
  stopRequested : Bool
  /-- When the run was started or the last burst was made. -/
  lastBurst : Nat

namespace Session

/-- A session that has not loaded anything. -/
def new (pace : Pace) : Session where
  pace := pace
  transcript := .fresh .interactive
  engine := none
  state := .idle
  stopRequested := false
  lastBurst := 0

/-- Makes up to `budget` steps. A halt is noticed at once and announced
on the transcript; a step that has to wait ends the burst. -/
def advance : (budget : Nat) → Engine → Transcript → RunState × Engine × Transcript
  | 0, e, t =>
    match e.status with
    | .halted reason => (.finished reason, e, t.printStop)
    | _ => (.running, e, t)
  | budget + 1, e, t =>
    match e.status with
    | .halted reason => (.finished reason, e, t.printStop)
    | _ =>
      let (e, t) := e.step t
      match e.status with
      | .awaitingInput => (.awaitingInput, e, t)
      | _ => advance budget e t

section Advance

variable {e : Engine} {t : Transcript} {budget : Nat}

/-- A halt ends the burst, with a notice and without a step. -/
theorem advance_of_halted {reason : HaltReason} (h : e.status = .halted reason) :
    advance budget e t = (.finished reason, e, t.printStop) := by
  cases budget <;> simp only [advance, h]

/-- Without a budget an engine that has not halted goes on later. -/
theorem advance_zero (h : ¬ e.status.isHalted) : advance 0 e t = (.running, e, t) := by
  rcases Status.running_or_awaiting h with hstatus | hstatus <;> simp only [advance, hstatus]

/-- A step that waits ends the burst, whatever is left of the budget. -/
theorem advance_succ_of_awaiting (h : ¬ e.status.isHalted)
    (hwait : (e.step t).1.status = .awaitingInput) :
    advance (budget + 1) e t = (.awaitingInput, e.step t) := by
  rcases Status.running_or_awaiting h with hstatus | hstatus <;>
    simp only [advance, hstatus, hwait]

/-- Any other step is followed by the rest of the budget. -/
theorem advance_succ (h : ¬ e.status.isHalted)
    (hwait : (e.step t).1.status ≠ .awaitingInput) :
    advance (budget + 1) e t = advance budget (e.step t).1 (e.step t).2 := by
  rcases Status.running_or_awaiting h with hstatus | hstatus <;> simp only [advance, hstatus]

end Advance

/-- A burst of up to `budget` steps, whatever the time. A wanted stop
halts the engine first. A run that waits goes on only if its engine
has halted or there is something to read. -/
def burstOf (s : Session) (budget : Nat) : Session :=
  match s.engine with
  | none => s
  | some e =>
    if !s.state.isRunning then s
    else
      let e := if s.stopRequested then e.stop else e
      if s.state = .awaitingInput ∧ !e.status.isHalted ∧ !s.transcript.hasPending then s
      else
        let (state, e, t) := advance budget e s.transcript
        { s with state, engine := some e, transcript := t }

section BurstOf

variable {s : Session} {e : Engine} {budget : Nat}

/-- Where no run is in progress, a burst does nothing. -/
theorem burstOf_of_not_running (h : ¬ s.state.isRunning) : s.burstOf budget = s := by
  unfold burstOf
  split
  · rfl
  · rw [if_pos (by simpa using h)]

/-- A run that waits makes no step if its engine has not halted and
there is nothing to read. -/
theorem burstOf_of_awaiting (he : s.engine = some e) (hstate : s.state = .awaitingInput)
    (hhalted : ¬ (if s.stopRequested then e.stop else e).status.isHalted)
    (hpending : ¬ s.transcript.hasPending) : s.burstOf budget = s := by
  unfold burstOf
  simp only [he, hstate, RunState.isRunning]
  simp [hhalted, hpending]

/-- Every other run makes its steps, after it was stopped if it has to
be. -/
theorem burstOf_eq_advance (budget : Nat) (he : s.engine = some e) (hstate : s.state.isRunning)
    (hready : s.state = .awaitingInput →
      (if s.stopRequested then e.stop else e).status.isHalted ∨ s.transcript.hasPending) :
    s.burstOf budget =
      let (state, e, t) := advance budget (if s.stopRequested then e.stop else e) s.transcript
      { s with state, engine := some e, transcript := t } := by
  unfold burstOf
  rw [he]
  simp only [hstate, Bool.not_true, Bool.false_eq_true, if_false]
  rw [if_neg]
  rintro ⟨hwait, hhalted, hpending⟩
  rcases hready hwait with h | h
  · rw [h] at hhalted
    cases hhalted
  · rw [h] at hpending
    cases hpending

/-- A burst changes nothing, or it is made of steps. -/
theorem burstOf_cases (s : Session) (budget : Nat) :
    s.burstOf budget = s ∨
      ∃ e, s.burstOf budget =
        let (state, e, t) := advance budget e s.transcript
        { s with state, engine := some e, transcript := t } := by
  by_cases hstate : s.state.isRunning
  · cases he : s.engine with
    | none => exact Or.inl (by simp only [burstOf, he])
    | some e =>
      by_cases hready : s.state = .awaitingInput →
          (if s.stopRequested then e.stop else e).status.isHalted ∨ s.transcript.hasPending
      · exact Or.inr ⟨_, burstOf_eq_advance budget he hstate hready⟩
      · simp only [Classical.not_imp, not_or] at hready
        exact Or.inl (burstOf_of_awaiting he hready.1 hready.2.1 hready.2.2)
  · exact Or.inl (burstOf_of_not_running hstate)

end BurstOf

/-- A burst at time `now`. -/
def burst (s : Session) (now : Nat) : Session :=
  let budget := s.pace.budget (now - s.lastBurst)
  { s.burstOf budget with lastBurst := now }

/-- Asks the run to stop; the next burst sees to it. -/
def requestStop (s : Session) : Session :=
  if s.state.isRunning then { s with stopRequested := true } else s

/-- Makes bursts at the given times for as long as a run is in
progress. -/
def settle (s : Session) : (times : List Nat) → Session
  | [] => s
  | now :: times => if s.state.isRunning then (s.burst now).settle times else s

/-- Stops the run, if there is one, with bursts at the given times. A
single burst is enough, however short it is. -/
def stop (s : Session) (times : List Nat) : Session := s.requestStop.settle times

/-- Stops the run in progress, if there is one, and starts a new one on
a fresh transcript. A program that cannot be loaded starts nothing,
and the engine and transcript of the last run stay. -/
def run (s : Session) (mode : InputMode) (now : Nat) (load : Except LoadError Engine) :
    Except LoadError Unit × Session :=
  let s := s.stop [now]
  match load with
  | .error e => (.error e, s)
  | .ok engine =>
    (.ok (),
      { s with
        transcript := .fresh mode
        engine := some engine
        stopRequested := false
        lastBurst := now
        state := match mode with
          | .interactive => .running
          | .staged => .awaitingInput })

/-- The user's view of the transcript; see `Transcript.offer`. -/
def offer (s : Session) (text : String) : Transcript.Offer × Session :=
  let (outcome, t) := s.transcript.offer text
  (outcome, { s with transcript := t })

end Session

end EsoHost
