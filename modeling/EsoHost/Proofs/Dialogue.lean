import EsoHost.Proofs.Session
import EsoHost.Terminal

/-!
# `EsoHost.Proofs.Dialogue`: a run without a clock

How a terminal run is cut into bursts depends on the clock and on the
pace of its session. A `Dialogue` is the same run without them: the
engine makes one step after the other, and when it waits it gets the
next line. `Terminal.ends_of_run` shows that a terminal run that
returns has done what its dialogue does, whatever the times were.
`timing_never_shows` says what follows for two runs.

The argument follows the layers of the host. A burst is some steps of
the dialogue (`Dialogue.burst_advance`, by induction on the budget),
and it stops only where the dialogue can go on or has ended. A turn of the
terminal is a burst, then at most one line (`Terminal.ends_of_run`, by
induction on the turns).

The terminal writes after every burst, and the dialogue only when a
line is typed and at the end. This makes no difference, because writing
a transcript piece by piece is the same as writing it at once
(`Screen.flush_flush`). A line that is echoed is skipped in both, and
it is typed at the same point in both, so nothing depends on whether
lines are echoed.
-/

set_option autoImplicit false

namespace EsoHost

/-! ### Screens -/

namespace Screen

/-- Whether there is anything to write or not, the output gains what
does not show yet. -/
theorem output_flush (s : Screen) (contents : String) :
    (s.flush contents).output = s.output ++ s.unshown contents := by
  unfold flush
  split
  · rfl
  · rename_i hnothing
    rw [← String.length_toList, Nat.not_lt] at hnothing
    rw [unshown, List.drop_of_length_le hnothing, String.ofList_nil, String.append_empty]

/-- All of the transcript shows after it was written. -/
theorem shown_flush (s : Screen) (contents : String) :
    (s.flush contents).shown = max s.shown contents.length := by
  unfold flush
  split
  · rename_i hmore
    exact (Nat.max_eq_right (Nat.le_of_lt hmore)).symm
  · rename_i hnothing
    exact (Nat.max_eq_left (Nat.not_lt.mp hnothing)).symm

/-- Writing does not change what is echoed. -/
theorem echoed_flush (s : Screen) (contents : String) :
    (s.flush contents).echoed = s.echoed := by
  unfold flush
  split <;> rfl

/-- A transcript is cut where it showed, and the cut does not show. -/
theorem unshown_flush (s : Screen) {contents later : String}
    (h : contents.toList <+: later.toList) :
    s.unshown contents ++ (s.flush contents).unshown later = s.unshown later := by
  obtain ⟨rest, hrest⟩ := h
  apply String.toList_injective
  rw [String.toList_append, unshown, unshown, unshown, String.toList_ofList,
    String.toList_ofList, String.toList_ofList, shown_flush, ← hrest, ← String.length_toList]
  -- Nothing ties the count of a screen to a transcript, so it may lie
  -- beyond the end.
  rcases Nat.le_total s.shown contents.toList.length with hle | hle
  · rw [Nat.max_eq_right hle, List.drop_left, List.drop_append_of_le_length hle]
  · rw [Nat.max_eq_left hle, List.drop_of_length_le hle, List.nil_append]

/-- Writing a transcript before it grows makes no difference. -/
theorem flush_flush (s : Screen) {contents later : String}
    (h : contents.toList <+: later.toList) :
    (s.flush contents).flush later = s.flush later := by
  have hlength : contents.length ≤ later.length := by
    rw [← String.length_toList, ← String.length_toList]
    exact h.length_le
  have hshown : ((s.flush contents).flush later).shown = (s.flush later).shown := by
    rw [shown_flush, shown_flush, shown_flush, Nat.max_assoc, Nat.max_eq_right hlength]
  have houtput : ((s.flush contents).flush later).output = (s.flush later).output := by
    rw [output_flush, output_flush, output_flush, String.append_assoc, unshown_flush s h]
  have hechoed : ((s.flush contents).flush later).echoed = (s.flush later).echoed := by
    rw [echoed_flush, echoed_flush, echoed_flush]
  exact Screen.ext hechoed houtput hshown

end Screen

/-! ### Dialogues -/

/-- An engine, its transcript, the lines that the user will type, and
what the user sees. -/
structure Dialogue where
  engine : Engine
  transcript : Transcript
  /-- The engine makes no step until there is something to read. -/
  waiting : Bool
  /-- A line that is not UTF-8 has no text. -/
  lines : List (Option String)
  /-- The screen as it was when the last line was typed. -/
  screen : Screen

namespace Dialogue

/-- How a dialogue ends, all that was written, and the lines that were
not taken. -/
structure Result where
  ending : Ending
  output : String
  lines : List (Option String)
  deriving DecidableEq

/-- What a dialogue does next. -/
inductive Turn where
  | goOn (d : Dialogue)
  | stop (result : Result)

/-- A halt ends the dialogue, with a notice. Otherwise the engine makes
a step or, if it waits, looks for something to read, and the user types
a line if there is nothing. A user without lines stops the engine. -/
def next : Dialogue → Turn
  | ⟨e, t, waiting, lines, screen⟩ =>
    match e.status with
    | .halted reason =>
      .stop ⟨.finished reason, (screen.flush t.printStop.contents).output, lines⟩
    | _ =>
      if !waiting then
        let (e, t) := e.step t
        .goOn ⟨e, t, e.status = .awaitingInput, lines, screen⟩
      else if t.hasPending then
        .goOn ⟨e, t, false, lines, screen⟩
      else
        match lines with
        | [] => .stop ⟨.finished .stopped, (screen.flush t.printStop.contents).output, []⟩
        | none :: lines => .stop ⟨.undecodable, (screen.flush t.contents).output, lines⟩
        | some line :: lines =>
          let line := Text.endLine line
          .goOn ⟨e, (t.type line).2, true, lines,
            (screen.flush t.contents).countTyped (t.type line).1 line⟩

/-- The dialogue comes to an end, and this is its result. -/
inductive Ends : Dialogue → Result → Prop where
  | stop {d : Dialogue} {r : Result} (h : d.next = .stop r) : Ends d r
  | goOn {d d' : Dialogue} {r : Result} (h : d.next = .goOn d') (hends : Ends d' r) : Ends d r

/-- A dialogue has one result at most. -/
theorem Ends.unique {d : Dialogue} {r r' : Result} (h : d.Ends r) (h' : d.Ends r') : r = r' := by
  induction h with
  | stop hstop =>
    cases h' with
    | stop hstop' => exact Turn.stop.inj (hstop.symm.trans hstop')
    | goOn hgoOn _ => cases hstop.symm.trans hgoOn
  | goOn hgoOn _ ih =>
    cases h' with
    | stop hstop => cases hgoOn.symm.trans hstop
    | goOn hgoOn' hends' =>
      obtain rfl := Turn.goOn.inj (hgoOn.symm.trans hgoOn')
      exact ih hends'

/-- Whatever the second dialogue results in, the first results in too. -/
def Leads (d d' : Dialogue) : Prop := ∀ r, d'.Ends r → d.Ends r

/-- A dialogue leads to itself. -/
theorem Leads.refl (d : Dialogue) : d.Leads d := fun _ h => h

/-- What is led to leads on. -/
theorem Leads.trans {d d' d'' : Dialogue} (h : d.Leads d') (h' : d'.Leads d'') : d.Leads d'' :=
  fun r hends => h r (h' r hends)

/-- A dialogue leads to what it goes on with. -/
theorem Leads.of_next {d d' : Dialogue} (h : d.next = .goOn d') : d.Leads d' :=
  fun _ hends => .goOn h hends

section Next

variable {e : Engine} {t : Transcript} {waiting : Bool} {lines : List (Option String)}
  {screen : Screen}

/-- A halt is the end, whether the dialogue waits or not. -/
theorem next_of_halted {reason : HaltReason} (h : e.status = .halted reason) :
    next ⟨e, t, waiting, lines, screen⟩
      = .stop ⟨.finished reason, (screen.flush t.printStop.contents).output, lines⟩ := by
  simp only [next, h]

/-- An engine that does not wait makes a step. -/
theorem next_of_running (t : Transcript) (lines : List (Option String)) (screen : Screen)
    (h : ¬ e.status.isHalted) :
    next ⟨e, t, false, lines, screen⟩
      = .goOn ⟨(e.step t).1, (e.step t).2, (e.step t).1.status = .awaitingInput, lines,
          screen⟩ := by
  rcases Status.running_or_awaiting h with hstatus | hstatus <;> simp [next, hstatus]

/-- A dialogue that waits and has something to read is one that does
not wait. -/
theorem next_of_pending (h : ¬ e.status.isHalted) (hpending : t.hasPending) :
    next ⟨e, t, true, lines, screen⟩ = .goOn ⟨e, t, false, lines, screen⟩ := by
  rcases Status.running_or_awaiting h with hstatus | hstatus <;>
    simp [next, hstatus, hpending]

/-- What the user does when it is their turn. -/
theorem next_of_waiting (lines : List (Option String)) (screen : Screen)
    (h : ¬ e.status.isHalted) (hpending : ¬ t.hasPending) :
    next ⟨e, t, true, lines, screen⟩ =
      match lines with
      | [] => .stop ⟨.finished .stopped, (screen.flush t.printStop.contents).output, []⟩
      | none :: lines => .stop ⟨.undecodable, (screen.flush t.contents).output, lines⟩
      | some line :: lines =>
        .goOn ⟨e, (t.type (Text.endLine line)).2, true, lines,
          (screen.flush t.contents).countTyped (t.type (Text.endLine line)).1
            (Text.endLine line)⟩ := by
  rcases Status.running_or_awaiting h with hstatus | hstatus <;>
    simp [next, hstatus, hpending]

end Next

/-- If the dialogue waits, it is the user's turn: the engine has not
halted, and there is nothing to read. -/
def Settled (d : Dialogue) : Prop :=
  d.waiting → ¬ d.engine.status.isHalted ∧ ¬ d.transcript.hasPending

/-- What the host of a dialogue calls its state. -/
def state (d : Dialogue) : RunState := if d.waiting then .awaitingInput else .running

/-! ### Bursts -/

/-- What a burst may leave behind: the user has done nothing, and the
dialogue has either come to a settled one or ended. -/
inductive Burst (d : Dialogue) (state : RunState) (e : Engine) (t : Transcript) : Prop where
  | goOn (waiting : Bool) (hstate : state = Dialogue.state ⟨e, t, waiting, d.lines, d.screen⟩)
      (hleads : d.Leads ⟨e, t, waiting, d.lines, d.screen⟩)
      (hsettled : Settled ⟨e, t, waiting, d.lines, d.screen⟩)
  | stop (reason : HaltReason) (hstate : state = .finished reason)
      (hends : d.Ends ⟨.finished reason, (d.screen.flush t.contents).output, d.lines⟩)

/-- A burst of a later dialogue is a burst of an earlier one, if the user
has done nothing in between. -/
theorem Burst.of_leads {d d' : Dialogue} {state : RunState} {e : Engine} {t : Transcript}
    (h : d'.Burst state e t) (hleads : d.Leads d') (hlines : d'.lines = d.lines)
    (hscreen : d'.screen = d.screen) : d.Burst state e t := by
  cases h with
  | goOn waiting hstate hleads' hsettled =>
    rw [hlines, hscreen] at hleads' hsettled hstate
    exact .goOn waiting hstate (hleads.trans hleads') hsettled
  | stop reason hstate hends =>
    rw [hlines, hscreen] at hends
    exact .stop reason hstate (hleads _ hends)

/-- A halt is noticed without a step. -/
theorem burst_advance_of_halted {e : Engine} (h : e.status.isHalted) (budget : Nat)
    (t : Transcript) (lines : List (Option String)) (screen : Screen) :
    Burst ⟨e, t, false, lines, screen⟩ (Session.advance budget e t).1
      (Session.advance budget e t).2.1 (Session.advance budget e t).2.2 := by
  obtain ⟨reason, hreason⟩ := Status.exists_halted h
  rw [Session.advance_of_halted hreason]
  exact .stop reason rfl (.stop (next_of_halted hreason))

/-- However many steps are made, they are steps of the dialogue. -/
theorem burst_advance (budget : Nat) (e : Engine) (t : Transcript)
    (lines : List (Option String)) (screen : Screen) :
    Burst ⟨e, t, false, lines, screen⟩ (Session.advance budget e t).1
      (Session.advance budget e t).2.1 (Session.advance budget e t).2.2 := by
  induction budget generalizing e t with
  | zero =>
    by_cases hhalted : e.status.isHalted
    · exact burst_advance_of_halted hhalted _ t lines screen
    · rw [Session.advance_zero hhalted]
      exact .goOn false rfl (.refl _) (by intro h; cases h)
  | succ budget ih =>
    by_cases hhalted : e.status.isHalted
    · exact burst_advance_of_halted hhalted _ t lines screen
    · have hleads := Leads.of_next (next_of_running t lines screen hhalted)
      by_cases hwait : (e.step t).1.status = .awaitingInput
      · rw [Session.advance_succ_of_awaiting hhalted hwait]
        rw [decide_eq_true hwait] at hleads
        refine .goOn true rfl hleads ?_
        -- A step that waits has used up the record.
        intro _
        show ¬ (e.step t).1.status.isHalted ∧ ¬ (e.step t).2.hasPending
        simp [hwait, Status.isHalted, Transcript.hasPending, Engine.unread_step hwait]
      · rw [Session.advance_succ hhalted hwait]
        rw [decide_eq_false hwait] at hleads
        exact (ih _ _).of_leads hleads rfl rfl

/-- A dialogue that waits for nothing does not wait. -/
theorem leads_of_ready {e : Engine} {t : Transcript} {waiting : Bool}
    {lines : List (Option String)} {screen : Screen}
    (h : waiting → e.status.isHalted ∨ t.hasPending) :
    Leads ⟨e, t, waiting, lines, screen⟩ ⟨e, t, false, lines, screen⟩ := by
  cases waiting with
  | false => exact .refl _
  | true =>
    by_cases hhalted : e.status.isHalted
    · -- Both dialogues end here, and in the same way.
      obtain ⟨reason, hreason⟩ := Status.exists_halted hhalted
      intro r hends
      obtain rfl := hends.unique (.stop (next_of_halted hreason))
      exact .stop (next_of_halted hreason)
    · exact .of_next (next_of_pending hhalted ((h rfl).resolve_left hhalted))

end Dialogue

/-! ### Sessions -/

namespace Session

/-- The session is where the dialogue is, and nobody wants it to stop. -/
structure Follows (s : Session) (d : Dialogue) : Prop where
  engine_eq : s.engine = some d.engine
  transcript_eq : s.transcript = d.transcript
  state_eq : s.state = d.state
  stopRequested_eq : s.stopRequested = false

/-- A session that follows a dialogue is in the middle of a run. -/
theorem Follows.isRunning {s : Session} {d : Dialogue} (h : s.Follows d) :
    s.state.isRunning := by
  rw [h.state_eq, Dialogue.state]
  split <;> rfl

/-- Whatever the time, a burst is a burst of the dialogue. -/
theorem Follows.burst {s : Session} {d : Dialogue} (h : s.Follows d) (now : Nat) :
    ∃ e, (s.burst now).engine = some e ∧ (s.burst now).stopRequested = false ∧
      d.Burst (s.burst now).state e (s.burst now).transcript := by
  have hunstopped : (if s.stopRequested then d.engine.stop else d.engine) = d.engine := by
    simp [h.stopRequested_eq]
  -- A session that waits makes a burst only if it could go on. The
  -- dialogue looks for the same.
  by_cases hready : d.waiting → d.engine.status.isHalted ∨ d.transcript.hasPending
  · have hawake : s.state = .awaitingInput →
        (if s.stopRequested then d.engine.stop else d.engine).status.isHalted ∨
          s.transcript.hasPending := by
      intro hstate
      rw [hunstopped, h.transcript_eq]
      apply hready
      by_contra hwaiting
      simp [h.state_eq, Dialogue.state, hwaiting] at hstate
    have hburst := burstOf_eq_advance (s.pace.budget (now - s.lastBurst)) h.engine_eq
      h.isRunning hawake
    rw [hunstopped, h.transcript_eq] at hburst
    simp only [Session.burst, hburst]
    refine ⟨_, rfl, h.stopRequested_eq, ?_⟩
    exact (Dialogue.burst_advance _ d.engine d.transcript d.lines d.screen).of_leads
      (Dialogue.leads_of_ready hready) rfl rfl
  · -- Nothing happens: the run waits for the user.
    simp only [Classical.not_imp, not_or] at hready
    obtain ⟨hwaiting, hhalted, hpending⟩ := hready
    have hstate : s.state = .awaitingInput := by simp [h.state_eq, Dialogue.state, hwaiting]
    have hsame : s.burstOf (s.pace.budget (now - s.lastBurst)) = s :=
      burstOf_of_awaiting h.engine_eq hstate (by rwa [hunstopped]) (by rwa [h.transcript_eq])
    simp only [Session.burst, hsame]
    refine ⟨d.engine, h.engine_eq, h.stopRequested_eq, ?_⟩
    rw [h.transcript_eq]
    exact .goOn d.waiting h.state_eq (.refl d) fun _ => ⟨hhalted, hpending⟩

/-- A stop ends the run with the notice, and with nothing else. -/
theorem Follows.stop {s : Session} {d : Dialogue} (h : s.Follows d)
    (hlive : ¬ d.engine.status.isHalted) (now : Nat) :
    (s.stop [now]).state = .finished .stopped ∧
      (s.stop [now]).transcript = d.transcript.printStop := by
  rw [stop_of_running h.engine_eq h.isRunning (Status.stop_of_not_halted hlive) now,
    ← h.transcript_eq]
  exact ⟨rfl, rfl⟩

/-- A run that was started is at the start of its dialogue. What the
session did before does not matter. -/
theorem follows_run (s : Session) (mode : InputMode) (now : Nat) (engine : Engine)
    (lines : List (Option String)) (screen : Screen) :
    (s.run mode now (.ok engine)).2.Follows
      ⟨engine, .fresh mode, mode = .staged, lines, screen⟩ := by
  cases mode <;> exact ⟨rfl, rfl, rfl, rfl⟩

end Session

/-! ### Terminals -/

namespace Terminal

section Run

variable {clock : Nat → Nat} {turns turn : Nat} {t t' : Terminal} {screen : Screen}
  {lines rest : List (Option String)} {ending : Ending}

/-- The user sees the same on the terminal and on the screen, once both
have written out the transcript. -/
def SeenAs (t : Terminal) (screen : Screen) : Prop :=
  t.toScreen.flush t.session.transcript.contents = screen.flush t.session.transcript.contents

/-- It stays that way while the transcript grows. -/
theorem SeenAs.flush_eq (h : t.SeenAs screen) {later : Transcript}
    (hgrows : t.session.transcript.Grows later) :
    t.toScreen.flush later.contents = screen.flush later.contents := by
  calc t.toScreen.flush later.contents
      = (t.toScreen.flush t.session.transcript.contents).flush later.contents :=
        (t.toScreen.flush_flush hgrows).symm
    _ = (screen.flush t.session.transcript.contents).flush later.contents := by
        rw [show t.toScreen.flush _ = screen.flush _ from h]
    _ = screen.flush later.contents := screen.flush_flush hgrows

/-- The user sees a terminal as what it is. -/
theorem seenAs_self (t : Terminal) : t.SeenAs t.toScreen := rfl

/-- It does not matter whether the terminal has written it out. -/
theorem seenAs_of_flushed (h : t.toScreen = screen.flush t.session.transcript.contents) :
    t.SeenAs screen := by
  unfold SeenAs
  rw [h]
  exact screen.flush_flush List.prefix_rfl

/-- A turn of a terminal on which the user sees a screen: the session
makes a burst, and all of its transcript is on the screen then. -/
theorem SeenAs.turn_eq (h : t.SeenAs screen) (now : Nat) :
    (t.turn now).terminal
      = { toScreen := screen.flush (t.session.burst now).transcript.contents
          session := t.session.burst now } ∧
      (t.turn now).wish = (t.turn now).terminal.wish := by
  have hscreen := h.flush_eq (t.session.grows_burst now)
  refine ⟨?_, rfl⟩
  rw [← hscreen]
  rfl

/-- A run that has finished needs one more turn, which writes out what
is left. -/
theorem result_of_finished {reason : HaltReason} (hstate : t.session.state = .finished reason)
    (hseen : t.SeenAs screen) (h : run clock turns turn t lines = some (ending, t', rest)) :
    ending = .finished reason ∧
      t'.output = (screen.flush t.session.transcript.contents).output ∧ rest = lines := by
  -- The burst of a session that has finished does nothing, but its turn
  -- still writes.
  cases turns with
  | zero => cases h
  | succ turns =>
    have hburst := Session.burst_of_not_running (s := t.session)
      (by simp [hstate, RunState.isRunning]) (clock (2 * turn))
    obtain ⟨hterminal, hwish⟩ := hseen.turn_eq (clock (2 * turn))
    rw [hburst] at hterminal
    rw [hterminal] at hwish
    have hleave : (t.turn (clock (2 * turn))).wish = .leave (.finished reason) := by
      rw [hwish]
      simp only [wish, hstate]
    simp only [run, hleave, hterminal, Option.some.injEq, Prod.mk.injEq] at h
    obtain ⟨rfl, rfl, rfl⟩ := h
    exact ⟨rfl, rfl, rfl⟩

/-- A run without input ends as stopped. -/
theorem result_of_hangUp {d : Dialogue} {now : Nat} (hfollows : t.session.Follows d)
    (hlive : ¬ d.engine.status.isHalted) (hseen : t.SeenAs screen)
    (h : run clock turns turn (t.hangUp now) lines = some (ending, t', rest)) :
    ending = .finished .stopped ∧
      t'.output = (screen.flush d.transcript.printStop.contents).output ∧ rest = lines := by
  obtain ⟨hstopped, htranscript⟩ := hfollows.stop hlive now
  have hgrows : t.session.transcript.Grows (t.session.stop [now]).transcript := by
    rw [htranscript, hfollows.transcript_eq]
    exact Transcript.grows_printStop _
  -- The notice comes after all that the user has seen.
  have hseen' : (t.hangUp now).SeenAs screen := hseen.flush_eq hgrows
  rw [← htranscript]
  exact result_of_finished (t := t.hangUp now) hstopped hseen' h

/-- A run that returns has done what its dialogue does. -/
theorem ends_of_run {d : Dialogue} (hfollows : t.session.Follows d) (hseen : t.SeenAs d.screen)
    (h : run clock turns turn t d.lines = some (ending, t', rest)) :
    d.Ends ⟨ending, t'.output, rest⟩ := by
  -- The induction is on the turns, for all terminals and their dialogues.
  induction turns generalizing turn t d with
  | zero => cases h
  | succ turns ih =>
    obtain ⟨e, he, hstop, hburst⟩ := hfollows.burst (clock (2 * turn))
    obtain ⟨hterminal, hwish⟩ := hseen.turn_eq (clock (2 * turn))
    -- From here on the burst matters only for what it leaves behind.
    simp only [run, hwish, hterminal] at h
    generalize t.session.burst (clock (2 * turn)) = s at he hstop hburst hterminal h
    have hseen₁ : Terminal.SeenAs ⟨d.screen.flush s.transcript.contents, s⟩ d.screen :=
      seenAs_of_flushed rfl
    cases hburst with
    | stop reason hstate hends =>
      simp only [wish, hstate, Option.some.injEq, Prod.mk.injEq] at h
      obtain ⟨rfl, rfl, rfl⟩ := h
      exact hends
    | goOn waiting hstate hleads hsettled =>
      have hfollows₁ : s.Follows ⟨e, s.transcript, waiting, d.lines, d.screen⟩ :=
        ⟨he, rfl, hstate, hstop⟩
      apply hleads
      cases waiting with
      | false =>
        have hstate : s.state = .running := hstate
        simp only [wish, hstate] at h
        exact ih hfollows₁ hseen₁ h
      | true =>
        -- It is the user's turn, both here and in the dialogue.
        have hstate : s.state = .awaitingInput := hstate
        obtain ⟨hlive, hempty⟩ := hsettled rfl
        have hnext := Dialogue.next_of_waiting d.lines d.screen hlive hempty
        simp only [wish, hstate] at h
        cases hlines : d.lines with
        | nil =>
          rw [hlines] at h hnext
          obtain ⟨rfl, hwritten, rfl⟩ := result_of_hangUp hfollows₁ hlive hseen₁ h
          rw [hwritten]
          exact .stop hnext
        | cons line lines =>
          rw [hlines] at h hnext
          cases line with
          | none =>
            simp only [answer, List.head?_cons, List.tail_cons, Option.some.injEq,
              Prod.mk.injEq] at h
            obtain ⟨rfl, rfl, rfl⟩ := h
            exact .stop hnext
          | some line =>
            refine .goOn hnext
              (ih (t := type ⟨d.screen.flush s.transcript.contents, s⟩ line) ?_ ?_ h)
            · exact ⟨he, rfl, hstate, hstop⟩
            · -- An echoed line is skipped here and there, so the screens are the same.
              exact seenAs_self _

end Run

/-- Timing never shows. Take any two runs of one engine, in one mode and
on the same lines, whether these are echoed or not: on sessions with any
past and any pace, started at any times and with any clocks. If both
return, they end in the same way, have written the same text and have
left the same lines. -/
theorem timing_never_shows {engine : Engine} {mode : InputMode} {echoed : Bool}
    {lines : List (Option String)} {s₁ s₂ : Session} {now₁ now₂ : Nat} {clock₁ clock₂ : Nat → Nat}
    {turns₁ turns₂ turn₁ turn₂ : Nat} {ending₁ ending₂ : Ending} {t₁ t₂ : Terminal}
    {rest₁ rest₂ : List (Option String)}
    (h₁ : run clock₁ turns₁ turn₁ (.new echoed (s₁.run mode now₁ (.ok engine)).2) lines
      = some (ending₁, t₁, rest₁))
    (h₂ : run clock₂ turns₂ turn₂ (.new echoed (s₂.run mode now₂ (.ok engine)).2) lines
      = some (ending₂, t₂, rest₂)) :
    ending₁ = ending₂ ∧ t₁.output = t₂.output ∧ rest₁ = rest₂ := by
  have hends₁ := ends_of_run (t := .new echoed _)
    (s₁.follows_run mode now₁ engine lines (.blank echoed)) (seenAs_self _) h₁
  have hends₂ := ends_of_run (t := .new echoed _)
    (s₂.follows_run mode now₂ engine lines (.blank echoed)) (seenAs_self _) h₂
  simpa using hends₁.unique hends₂

/-- Reads, prints and reads again. -/
def echo : Engine := .brainfuck (.load #[.input, .output, .input])

/-- Bursts of up to a thousand steps, and bursts of one step. The line is
typed by hand, and it is not written. -/
theorem timing_never_shows_in_echo :
    ∃ t₁ t₂,
      run (fun n => 1000000 * n) 9 1
          (.new true ((Session.new ⟨1000, 1⟩).run .interactive 0 (.ok echo)).2) [some "a", none]
        = some (.finished .endOfProgram, t₁, [none]) ∧
      run (fun n => 2000000 * n) 9 1
          (.new true ((Session.new ⟨1, 1⟩).run .interactive 7 (.ok echo)).2) [some "a", none]
        = some (.finished .endOfProgram, t₂, [none]) ∧
      t₁.output = t₂.output ∧
      t₂.output = Transcript.runBanner ++ "a\n" ++ Transcript.stopBanner := by
  have h₁ : run (fun n => 1000000 * n) 9 1
      (.new true ((Session.new ⟨1000, 1⟩).run .interactive 0 (.ok echo)).2) [some "a", none]
      = some (_, _, _) := rfl
  have h₂ : run (fun n => 2000000 * n) 9 1
      (.new true ((Session.new ⟨1, 1⟩).run .interactive 7 (.ok echo)).2) [some "a", none]
      = some (_, _, _) := rfl
  -- Only the output is left to be computed, and for one of the two.
  exact ⟨_, _, h₁, h₂, (timing_never_shows h₁ h₂).2.1, by decide +kernel⟩

end Terminal

end EsoHost
