import EsoHost.Proofs.Chronicle
import EsoHost.Proofs.Dialogue
import EsoHost.Proofs.InputText
import EsoHost.Proofs.Record

/-!
# `EsoHost.Proofs.Delivery`: a terminal loses nothing

A terminal stands between a stream of lines and a stream of output, with
a transcript in the middle to which the program, the session and the
user all append. It remembers how much of the transcript it has written
out, and a line that it types takes the place of whatever the program
has not read yet. `terminal_loses_nothing` shows that neither can go
wrong, whatever the program and the clock do.

* `Terminal.Act` is one thing that a terminal does, and `Terminal.acts`
  lists those of a run. `Terminal.run_succ` ties the list to
  `Terminal.run`: both follow `Terminal.choose`.
* `Engine.takes_append`: a step takes its input from the front of the
  record. `Deed.taken_append` and `Session.Loaded.takes_append` carry
  this to a burst.
* `Terminal.Script` is what the list of acts relies on: a line is typed
  only when nothing is left to read. `script_acts` shows it of runs,
  and `Script.balance` draws the account of all that was typed.
-/

set_option autoImplicit false

namespace EsoHost

/-! ### What a step reads -/

/-- A program uses its transcript at most once before `t` becomes `t'`,
and it does not type. -/
def Transcript.UsedOnce (t t' : Transcript) : Prop :=
  t' = t ∨ ∃ use : Use, (∀ text, use ≠ .offer text) ∧ t' = use.apply t

/-- What is left to read is what was left before, less a piece at the
front. -/
theorem Transcript.UsedOnce.exists_taken {t t' : Transcript} (h : t.UsedOnce t') :
    (∃ taken, taken ++ t'.unread = t.unread) ∧ t'.opening = t.opening := by
  obtain rfl | ⟨use, huse, rfl⟩ := h
  · exact ⟨⟨[], rfl⟩, rfl⟩
  · obtain ⟨htakes, -, hopening⟩ := use.takes_append huse t
    exact ⟨⟨_, htakes⟩, hopening⟩

/-- An instruction reads once, prints once, or leaves the transcript
alone. -/
theorem Piet.usedOnce_execute (policy : ExhaustedInput) (value : Nat) (f : Frame)
    (instruction : Instruction) :
    f.transcript.UsedOnce (execute policy value f instruction).2.transcript := by
  cases instruction with
  | inNumber =>
    simp only [execute, transcript_receive]
    exact Or.inr ⟨.readNumber, by simp, rfl⟩
  | inChar =>
    simp only [execute, transcript_receive]
    exact Or.inr ⟨.readChar, by simp, rfl⟩
  | outNumber => exact Or.inr ⟨.print _, by simp, rfl⟩
  | outChar =>
    simp only [execute]
    split
    · exact Or.inr ⟨.print _, by simp, rfl⟩
    · exact Or.inl rfl
  | _ => exact Or.inl rfl

/-- So does a command. -/
theorem Brainfuck.Command.usedOnce_execute (c : Command) (place : Nat) (tape : Tape)
    (t : Transcript) : t.UsedOnce (c.execute place tape t).transcript := by
  cases c with
  | output => exact Or.inr ⟨.print _, by simp, rfl⟩
  | input =>
    -- Whether the command waits or goes on, the transcript is the one that
    -- reading leaves.
    have hread : (Command.input.execute place tape t).transcript = t.readChar.2 := by
      simp only [execute]
      cases t.readChar with
      | mk reading t' =>
        cases reading with
        | exhausted =>
          show Effect.transcript (if t'.isInteractive then _ else _) = t'
          split <;> rfl
        | _ => rfl
    exact Or.inr ⟨.readChar, by simp, hread⟩
  | _ => exact Or.inl rfl

namespace Engine

/-- A step makes one use of the transcript at most. -/
theorem usedOnce_step (e : Engine) (t : Transcript) : t.UsedOnce (e.step t).2 := by
  cases e with
  | piet m =>
    show t.UsedOnce (m.step t).2
    obtain ⟨hsame, -⟩ | ⟨m', instruction, value, arrival, hperform⟩ := m.step_cases t
    · exact Or.inl hsame
    · rw [hperform, Piet.Machine.transcript_perform]
      exact Piet.usedOnce_execute m'.policy value ⟨m'.stack, arrival.heading, t⟩ instruction
  | brainfuck m =>
    show t.UsedOnce (m.step t).2
    obtain ⟨hsame, -⟩ | ⟨c, htranscript, -⟩ := m.step_cases t
    · exact Or.inl hsame
    · rw [htranscript]
      exact c.usedOnce_execute m.next m.tape t

/-- The characters that a step takes from the record: as many from its
front as are not left. -/
def takes (e : Engine) (t : Transcript) : List Char :=
  t.unread.take (t.unread.length - (e.step t).2.unread.length)

/-- What a step takes and what it leaves make up what there was to read.
The first record stays the first. -/
theorem takes_append (e : Engine) (t : Transcript) :
    e.takes t ++ (e.step t).2.unread = t.unread ∧ (e.step t).2.opening = t.opening := by
  -- `takes` counts characters, and there is one piece of that length.
  obtain ⟨⟨taken, htaken⟩, hopening⟩ := (e.usedOnce_step t).exists_taken
  have hlength : t.unread.length - (e.step t).2.unread.length = taken.length := by
    rw [← htaken, List.length_append, Nat.add_sub_cancel]
  rw [takes, hlength, ← htaken, List.take_left]
  exact ⟨rfl, hopening⟩

end Engine

/-! ### What a burst reads -/

namespace Deed

/-- The characters that a deed takes from the record. -/
def takes : Deed → Engine × Transcript → List Char
  | step, (e, t) => e.takes t
  | _, _ => []

/-- The characters that some deeds take, in order. -/
def taken : List Deed → Engine × Transcript → List Char
  | [], _ => []
  | deed :: deeds, s => deed.takes s ++ taken deeds (deed.apply s)

/-- Where nothing is typed, what was taken and what is left make up what
there was. -/
theorem taken_append {deeds : List Deed} (h : ∀ text, .offer text ∉ deeds)
    (s : Engine × Transcript) :
    taken deeds s ++ (replay deeds s).2.unread = s.2.unread ∧
      (replay deeds s).2.opening = s.2.opening := by
  induction deeds generalizing s with
  | nil => exact ⟨rfl, rfl⟩
  | cons deed deeds ih =>
    -- Only a step reads, and only an offer could put something in its
    -- place.
    have hdeed : deed.takes s ++ (deed.apply s).2.unread = s.2.unread ∧
        (deed.apply s).2.opening = s.2.opening := by
      cases deed with
      | step => exact s.1.takes_append s.2
      | halt => exact ⟨rfl, rfl⟩
      | notice => exact ⟨rfl, rfl⟩
      | offer text => exact absurd List.mem_cons_self (h text)
    obtain ⟨hrest, hopening⟩ :=
      ih (fun text hmem => h text (List.mem_cons_of_mem _ hmem)) (deed.apply s)
    refine ⟨?_, hopening.trans hdeed.2⟩
    show deed.takes s ++ taken deeds (deed.apply s) ++ (replay deeds (deed.apply s)).2.unread = _
    rw [List.append_assoc, hrest, hdeed.1]

end Deed

namespace Session

/-- The characters that the engine takes from the record during an
operation. -/
def takes (s : Session) (op : Operation) : List Char :=
  s.engine.elim [] fun e => Deed.taken (op.deeds s) (e, s.transcript)

/-- A session with an engine, in good order. -/
structure Loaded (s : Session) : Prop where
  sound : s.Sound
  engine : ∃ e, s.engine = some e

/-- A program that loads gives a session with an engine. -/
theorem loaded_run (s : Session) (mode : InputMode) (now : Nat) (engine : Engine) :
    (s.run mode now (.ok engine)).2.Loaded := by
  refine ⟨⟨?_, ?_⟩, engine, rfl⟩
  · cases mode <;> simp [run]
  · cases mode <;> simp [run]

/-- No operation takes the engine away. -/
theorem Loaded.apply {s : Session} (h : s.Loaded) (op : Operation) (hop : ¬ op.Loads) :
    (op.apply s).Loaded := by
  obtain ⟨e, he⟩ := h.engine
  have hcarried := h.sound.carried op
  obtain ⟨e', he', -⟩ := hcarried.replay_eq e he
  rw [Operation.apply_of_not_loads hop]
  exact ⟨hcarried.sound, e', he'⟩

/-- An operation that neither starts a run nor types lets the engine
take from the front of the record, and does nothing else to it. -/
theorem Loaded.takes_append {s : Session} (h : s.Loaded) (op : Operation) (hop : ¬ op.Loads)
    (hdeeds : ∀ text, .offer text ∉ op.deeds s) :
    s.takes op ++ (op.apply s).transcript.unread = s.transcript.unread ∧
      (op.apply s).transcript.opening = s.transcript.opening := by
  obtain ⟨e, he⟩ := h.engine
  obtain ⟨e', -, hreplay⟩ := (h.sound.carried op).replay_eq e he
  have htaken := Deed.taken_append hdeeds (e, s.transcript)
  rw [hreplay] at htaken
  rw [Operation.apply_of_not_loads hop, takes, he]
  exact htaken

/-- The steps of a burst type nothing. -/
theorem offer_not_mem_effort (s : Session) (now : Nat) (text : String) :
    .offer text ∉ s.effort now := by
  rw [effort, List.mem_append]
  rintro (hmem | hmem)
  · split at hmem <;> simp at hmem
  · simp at hmem

/-- A burst types nothing. -/
theorem offer_not_mem_burst (s : Session) (now : Nat) (text : String) :
    .offer text ∉ (Operation.burst now).deeds s := by
  rw [Operation.deeds]
  split
  · rw [List.mem_append]
    rintro (hmem | hmem)
    · exact s.offer_not_mem_effort now text hmem
    · split at hmem <;> simp at hmem
  · exact List.not_mem_nil

/-- Nor does a stop. -/
theorem offer_not_mem_stop (s : Session) (now : Nat) (later : List Nat) (text : String) :
    .offer text ∉ (Operation.stop now later).deeds s := by
  rw [Operation.deeds]
  split <;> simp

/-- Waiting for the end of a run only adds to the transcript. -/
theorem grows_settle (s : Session) (times : List Nat) :
    s.transcript.Grows (s.settle times).transcript := by
  induction times generalizing s with
  | nil => exact .refl _
  | cons now times ih =>
    unfold settle
    split
    · exact (s.grows_burst now).trans (ih _)
    · exact .refl _

/-- So does a stop. -/
theorem grows_stop (s : Session) (times : List Nat) :
    s.transcript.Grows (s.stop times).transcript := by
  have hrequest : s.requestStop.transcript = s.transcript := by
    unfold requestStop
    split <;> rfl
  rw [← hrequest]
  exact s.requestStop.grows_settle times

end Session

/-- A line that is typed at the end of the transcript is accepted. It is
all there is to read then, as it is, or with NUL at its end if it is the
first record of a staged transcript. -/
theorem Transcript.offer_endLine (t : Transcript) (line : String) :
    (t.offer (t.contents ++ Text.endLine line)).1 = .accepted ∧
      (t.offer (t.contents ++ Text.endLine line)).2.opening = false ∧
      (t.offer (t.contents ++ Text.endLine line)).2.unread
        = if t.opening then (Text.endLine line).toList.dropLast ++ ['\x00']
          else (Text.endLine line).toList :=
  t.type_of_ended (Text.getLast?_endLine line)

/-! ### Acts -/

namespace Terminal

/-- One thing that a terminal does. -/
inductive Act where
  | burst (now : Nat)
  /-- Writes out what the transcript has gained. -/
  | flush
  | type (line : String)
  /-- Stops the run for want of lines. -/
  | hangUp (now : Nat)

namespace Act

/-- The terminal after an act. -/
def apply : Act → Terminal → Terminal
  | burst now, t => t.burst now
  | flush, t => t.flush
  | type line, t => t.type line
  | hangUp now, t => t.hangUp now

/-- The characters that the program takes from the record during an
act. -/
def takes (t : Terminal) : Act → List Char
  | burst now => t.session.takes (.burst now)
  | flush => []
  | type line => t.session.takes (.offer (t.session.transcript.contents ++ Text.endLine line))
  | hangUp now => t.session.takes (.stop now [])

/-- The line that an act types. -/
def line? : Act → Option String
  | type line => some line
  | _ => none

end Act

/-- The terminal after some acts. -/
def after (t : Terminal) (acts : List Act) : Terminal := acts.foldl (fun t act => act.apply t) t

/-- The characters that the program takes from its records during some
acts, in order. -/
def taken (t : Terminal) : List Act → List Char
  | [] => []
  | act :: acts => act.takes t ++ (act.apply t).taken acts

/-- The lines that are typed, in order. -/
def typed (acts : List Act) : List String := acts.filterMap Act.line?

/-- Acts are done in order. -/
theorem after_append (t : Terminal) (acts more : List Act) :
    t.after (acts ++ more) = (t.after acts).after more :=
  List.foldl_append

/-- A turn types what it goes on with. -/
theorem typed_turn (now : Nat) (made more : List Act) :
    typed (.burst now :: .flush :: (made ++ more)) = typed made ++ typed more :=
  List.filterMap_append

/-- What a terminal does when it has written everything out. -/
inductive Choice where
  /-- It ends the run. -/
  | leave (ending : Ending) (rest : List (Option String))
  /-- It goes on after some acts, with the lines that are left. -/
  | goOn (acts : List Act) (rest : List (Option String))

/-- The choice of a terminal. If it has no lines where one is wanted, it
hangs up at time `now`. -/
def choose (now : Nat) (t : Terminal) (lines : List (Option String)) : Choice :=
  match t.session.state with
  | .finished reason => .leave (.finished reason) lines
  | .idle => .leave (.finished .stopped) lines
  | .running => .goOn [] lines
  | .awaitingInput =>
    match lines with
    | [] => .goOn [.hangUp now] []
    | none :: rest => .leave .undecodable rest
    | some line :: rest => .goOn [.type line] rest

/-- The acts of the first turns of a run. -/
def acts (clock : Nat → Nat) :
    (turns turn : Nat) → Terminal → List (Option String) → List Act
  | 0, _, _, _ => []
  | turns + 1, turn, t, lines =>
    let t' := (t.burst (clock (2 * turn))).flush
    .burst (clock (2 * turn)) :: .flush ::
      match choose (clock (2 * turn + 1)) t' lines with
      | .leave _ _ => []
      | .goOn made rest => made ++ acts clock turns (turn + 1) (t'.after made) rest

section Run

variable {clock : Nat → Nat} {turns turn : Nat} {t t' : Terminal}
  {lines rest : List (Option String)} {ending : Ending}

/-- A run follows the choices of its terminal. -/
theorem run_succ (clock : Nat → Nat) (turns turn : Nat) (t : Terminal)
    (lines : List (Option String)) :
    run clock (turns + 1) turn t lines =
      match choose (clock (2 * turn + 1)) (t.burst (clock (2 * turn))).flush lines with
      | .leave ending rest => some (ending, (t.burst (clock (2 * turn))).flush, rest)
      | .goOn made rest =>
        run clock turns (turn + 1) ((t.burst (clock (2 * turn))).flush.after made) rest := by
  have hterminal : (t.turn (clock (2 * turn))).terminal = (t.burst (clock (2 * turn))).flush := rfl
  have hwish : (t.turn (clock (2 * turn))).wish = (t.burst (clock (2 * turn))).flush.wish := rfl
  rw [run, hterminal, hwish]
  generalize (t.burst (clock (2 * turn))).flush = t'
  unfold choose wish
  cases t'.session.state with
  | awaitingInput =>
    cases lines with
    | nil => rfl
    | cons line lines => cases line <;> rfl
  | _ => rfl

/-- What a terminal goes on with: nothing at all, the end of its lines,
or the next one. -/
theorem goOn_cases {now : Nat} {made : List Act} (h : choose now t lines = .goOn made rest) :
    (made = [] ∧ rest = lines) ∨
    (made = [.hangUp now] ∧ lines = [] ∧ rest = []) ∨
    (∃ line, made = [.type line] ∧ lines = some line :: rest ∧
      t.session.state = .awaitingInput) := by
  unfold choose at h
  cases hstate : t.session.state with
  | idle => simp [hstate] at h
  | finished reason => simp [hstate] at h
  | running =>
    simp only [hstate, Choice.goOn.injEq] at h
    exact Or.inl ⟨h.1.symm, h.2.symm⟩
  | awaitingInput =>
    cases lines with
    | nil =>
      simp only [hstate, Choice.goOn.injEq] at h
      exact Or.inr (Or.inl ⟨h.1.symm, rfl, h.2.symm⟩)
    | cons line lines =>
      cases line with
      | none => simp [hstate] at h
      | some line =>
        simp only [hstate, Choice.goOn.injEq] at h
        exact Or.inr (Or.inr ⟨line, h.1.symm, by rw [h.2], rfl⟩)

/-- The lines that are left are those that were not typed. -/
theorem lines_of_goOn {now : Nat} {made : List Act} (h : choose now t lines = .goOn made rest) :
    lines = (typed made).map some ++ rest := by
  obtain ⟨rfl, rfl⟩ | ⟨rfl, rfl, rfl⟩ | ⟨line, rfl, rfl, -⟩ := goOn_cases h <;> rfl

/-- A run that ends leaves the lines it has, less one that is no text. -/
theorem lines_of_leave {now : Nat} (h : choose now t lines = .leave ending rest) :
    lines = (if ending = .undecodable then [none] else []) ++ rest := by
  unfold choose at h
  cases hstate : t.session.state with
  | idle =>
    simp only [hstate, Choice.leave.injEq] at h
    simp [← h.1, h.2]
  | finished reason =>
    simp only [hstate, Choice.leave.injEq] at h
    simp [← h.1, h.2]
  | running => simp [hstate] at h
  | awaitingInput =>
    cases lines with
    | nil => simp [hstate] at h
    | cons line lines =>
      cases line with
      | none =>
        simp only [hstate, Choice.leave.injEq] at h
        simp [← h.1, h.2]
      | some line => simp [hstate] at h

end Run

/-! ### Output -/

/-- What was written is the beginning of the transcript, and `shown`
is how much that is. -/
structure Shows (t : Terminal) : Prop where
  /-- Nothing shows without being written. -/
  echoed_eq : t.echoed = false
  shown_eq : t.shown = t.output.length
  output_le : t.output.toList <+: t.session.transcript.contents.toList

/-- A terminal on which nothing was written, for lines that nobody types
by hand. -/
theorem shows_new (s : Session) : (Terminal.new false s).Shows := ⟨rfl, rfl, List.nil_prefix⟩

/-- A flush is the terminal's own business. -/
theorem session_flush (t : Terminal) : t.flush.session = t.session := rfl

/-- Where the session goes on, the output stays as it is. -/
theorem Shows.of_grows {t : Terminal} {s : Session} (h : t.Shows)
    (hgrows : t.session.transcript.Grows s.transcript) : Shows { t with session := s } :=
  ⟨h.echoed_eq, h.shown_eq, h.output_le.trans hgrows⟩

/-- Everything has been written after a flush. -/
theorem output_flush {t : Terminal} (h : t.Shows) :
    t.flush.output = t.session.transcript.contents := by
  obtain ⟨rest, hrest⟩ := h.output_le
  have hshown : t.shown = t.output.toList.length := h.shown_eq.trans String.length_toList.symm
  apply String.toList_injective
  show (t.toScreen.flush t.session.transcript.contents).output.toList = _
  rw [Screen.output_flush, String.toList_append, Screen.unshown, String.toList_ofList, ← hrest,
    hshown, List.drop_left]

/-- A flush writes what is missing, and counts it. -/
theorem Shows.flush {t : Terminal} (h : t.Shows) : t.flush.Shows := by
  have houtput := output_flush h
  have hle : t.shown ≤ t.session.transcript.contents.length := by
    rw [h.shown_eq, ← String.length_toList, ← String.length_toList]
    exact h.output_le.length_le
  refine ⟨?_, ?_, ?_⟩
  · exact (t.toScreen.echoed_flush _).trans h.echoed_eq
  · rw [houtput]
    exact (t.toScreen.shown_flush _).trans (Nat.max_eq_right hle)
  · rw [houtput]
    exact List.prefix_rfl

/-- A line that nobody has typed by hand is yet to be written. -/
theorem Shows.type {t : Terminal} (h : t.Shows) (line : String) : (t.type line).Shows := by
  have hscreen : (t.type line).toScreen = t.toScreen := by
    show t.toScreen.countTyped _ _ = _
    rw [Screen.countTyped, if_neg]
    rw [h.echoed_eq]
    exact fun hboth => Bool.false_ne_true hboth.2
  have hgrows := t.session.transcript.grows_offer
    (t.session.transcript.contents ++ Text.endLine line)
  refine ⟨?_, ?_, ?_⟩
  · rw [hscreen]
    exact h.echoed_eq
  · rw [hscreen]
    exact h.shown_eq
  · rw [hscreen]
    exact h.output_le.trans hgrows

/-- Whatever a terminal does, its output stays the beginning of the
transcript. -/
theorem Shows.apply {t : Terminal} (h : t.Shows) (act : Act) : (act.apply t).Shows := by
  cases act with
  | burst now => exact h.of_grows (t.session.grows_burst now)
  | flush => exact h.flush
  | type line => exact h.type line
  | hangUp now => exact h.of_grows (t.session.grows_stop [now])

/-- So it is after any acts. -/
theorem Shows.after {t : Terminal} (h : t.Shows) (acts : List Act) : (t.after acts).Shows := by
  induction acts generalizing t with
  | nil => exact h
  | cons act acts ih => exact ih (h.apply act)

/-- The output ends between two characters of the transcript, not
within one. -/
theorem Shows.isValid {t : Terminal} (h : t.Shows) :
    t.output.rawEndPos.IsValid t.session.transcript.contents := by
  obtain ⟨rest, hrest⟩ := h.output_le
  rw [String.Pos.Raw.isValid_iff_exists_append]
  refine ⟨t.output, String.ofList rest, ?_, rfl⟩
  rw [← String.toList_inj, String.toList_append, String.toList_ofList, hrest]

/-! ### Runs -/

section Acts

variable {clock : Nat → Nat} {turns turn : Nat} {t t' : Terminal}
  {lines rest : List (Option String)} {ending : Ending}

/-- A run that returns has done its acts, and it has written out
everything. -/
theorem result_of_run (hshows : t.Shows)
    (h : run clock turns turn t lines = some (ending, t', rest)) :
    t' = t.after (acts clock turns turn t lines) ∧
      t'.output = t'.session.transcript.contents ∧
      lines = (typed (acts clock turns turn t lines)).map some ++
        ((if ending = .undecodable then [none] else []) ++ rest) := by
  induction turns generalizing turn t lines with
  | zero => cases h
  | succ turns ih =>
    rw [run_succ] at h
    have hburst : (t.burst (clock (2 * turn))).Shows := hshows.apply (.burst _)
    cases hchoose : choose (clock (2 * turn + 1)) (t.burst (clock (2 * turn))).flush lines with
    | leave ending' rest' =>
      simp only [hchoose, Option.some.injEq, Prod.mk.injEq] at h
      obtain ⟨rfl, rfl, rfl⟩ := h
      simp only [acts, hchoose]
      refine ⟨rfl, ?_, lines_of_leave hchoose⟩
      rw [session_flush]
      exact output_flush hburst
    | goOn made rest' =>
      simp only [hchoose] at h
      obtain ⟨hafter, houtput, hlines⟩ := ih (hburst.flush.after made) h
      simp only [acts, hchoose]
      refine ⟨?_, houtput, ?_⟩
      · rw [hafter, ← after_append]
        rfl
      · rw [typed_turn, List.map_append, List.append_assoc, ← hlines]
        exact lines_of_goOn hchoose

/-- A run that does not return in its turns goes on from where its acts
have left it. -/
theorem run_of_eq_none (h : run clock turns turn t lines = none) (more : Nat) :
    run clock (turns + more) turn t lines =
      run clock more (turn + turns) (t.after (acts clock turns turn t lines))
        (lines.drop (typed (acts clock turns turn t lines)).length) := by
  induction turns generalizing turn t lines with
  | zero =>
    rw [Nat.zero_add]
    rfl
  | succ turns ih =>
    rw [run_succ] at h
    rw [Nat.add_right_comm, run_succ]
    cases hchoose : choose (clock (2 * turn + 1)) (t.burst (clock (2 * turn))).flush lines with
    | leave ending' rest' => simp [hchoose] at h
    | goOn made rest' =>
      simp only [hchoose] at h ⊢
      -- The lines that this turn types come first among those that are
      -- dropped.
      have hdrop (more : List Act) :
          lines.drop (typed made ++ typed more).length = rest'.drop (typed more).length := by
        conv_lhs => rw [lines_of_goOn hchoose]
        rw [List.length_append, ← List.drop_drop, List.drop_left' (List.length_map _)]
      simp only [acts, hchoose]
      rw [ih h, typed_turn, hdrop, Nat.add_assoc, Nat.add_comm 1, ← after_append]
      rfl

/-! ### Scripts -/

/-- Acts on a terminal with these lines ahead. A line is typed only
when there is nothing to read, and the run is hung up on only when there
are no more lines. -/
inductive Script : Terminal → List (Option String) → List Act → Prop where
  | done (t : Terminal) (lines : List (Option String)) : Script t lines []
  | burst {t : Terminal} {lines : List (Option String)} {acts : List Act} (now : Nat)
      (hrest : Script (t.burst now) lines acts) : Script t lines (.burst now :: acts)
  | flush {t : Terminal} {lines : List (Option String)} {acts : List Act}
      (hrest : Script t.flush lines acts) : Script t lines (.flush :: acts)
  | type {t : Terminal} {lines : List (Option String)} {acts : List Act} (line : String)
      (hnothing : ¬ t.session.transcript.hasPending)
      (hrest : Script (t.type line) lines acts) :
      Script t (some line :: lines) (.type line :: acts)
  | hangUp {t : Terminal} {acts : List Act} (now : Nat)
      (hrest : Script (t.hangUp now) [] acts) : Script t [] (.hangUp now :: acts)

/-- A script can be cut anywhere. -/
theorem Script.split {past more : List Act} (h : Script t lines (past ++ more)) :
    Script t lines past ∧
      ∃ rest, lines = (typed past).map some ++ rest ∧ Script (t.after past) rest more := by
  induction past generalizing t lines with
  | nil => exact ⟨.done t lines, lines, rfl, h⟩
  | cons act past ih =>
    cases h with
    | burst now hrest =>
      obtain ⟨hpast, rest, hlines, hmore⟩ := ih hrest
      exact ⟨.burst now hpast, rest, hlines, hmore⟩
    | flush hrest =>
      obtain ⟨hpast, rest, hlines, hmore⟩ := ih hrest
      exact ⟨.flush hpast, rest, hlines, hmore⟩
    | type line hnothing hrest =>
      obtain ⟨hpast, rest, rfl, hmore⟩ := ih hrest
      exact ⟨.type line hnothing hpast, rest, rfl, hmore⟩
    | hangUp now hrest =>
      obtain ⟨hpast, rest, hlines, hmore⟩ := ih hrest
      exact ⟨.hangUp now hpast, rest, hlines, hmore⟩

/-- No act takes the engine away. -/
theorem loaded_apply (h : t.session.Loaded) (act : Act) : (act.apply t).session.Loaded := by
  cases act with
  | burst now => exact h.apply (.burst now) id
  | flush =>
    show t.flush.session.Loaded
    rw [session_flush]
    exact h
  | type line => exact h.apply (.offer (t.session.transcript.contents ++ Text.endLine line)) id
  | hangUp now => exact h.apply (.stop now []) id

/-- Nor do any number of them. -/
theorem loaded_after (h : t.session.Loaded) (acts : List Act) :
    (t.after acts).session.Loaded := by
  induction acts generalizing t with
  | nil => exact h
  | cons act acts ih => exact ih (loaded_apply h act)

/-- The acts of a run are a script: a session that waits after a burst
has nothing to read. -/
theorem script_acts (clock : Nat → Nat) (turns turn : Nat) (h : t.session.Loaded)
    (lines : List (Option String)) : Script t lines (acts clock turns turn t lines) := by
  induction turns generalizing turn t lines with
  | zero => exact .done t lines
  | succ turns ih =>
    have hloaded := loaded_after h [.burst (clock (2 * turn)), .flush]
    cases hchoose : choose (clock (2 * turn + 1)) (t.burst (clock (2 * turn))).flush lines with
    | leave ending' rest' =>
      simp only [acts, hchoose]
      exact .burst _ (.flush (.done _ _))
    | goOn made rest' =>
      simp only [acts, hchoose]
      have hnext := ih (turn + 1) (loaded_after hloaded made) rest'
      refine .burst _ (.flush ?_)
      obtain ⟨rfl, rfl⟩ | ⟨rfl, rfl, rfl⟩ | ⟨line, rfl, rfl, hwaits⟩ := goOn_cases hchoose
      · exact hnext
      · exact .hangUp _ hnext
      · refine .type line ?_ hnext
        -- The burst has set the state, and the flush after it leaves the
        -- session alone.
        rw [session_flush] at hwaits ⊢
        obtain ⟨-, -, -, hnothing⟩ := h.sound.awaiting hwaits
        exact hnothing

/-- An act that types nothing lets the program take from the front of
the record, and does nothing else to it. -/
theorem takes_append (act : Act) (hact : act.line? = none) (h : t.session.Loaded) :
    act.takes t ++ (act.apply t).session.transcript.unread = t.session.transcript.unread ∧
      (act.apply t).session.transcript.opening = t.session.transcript.opening := by
  cases act with
  | burst now => exact h.takes_append (.burst now) id (t.session.offer_not_mem_burst now)
  | flush =>
    show [] ++ t.flush.session.transcript.unread = _ ∧ t.flush.session.transcript.opening = _
    rw [session_flush]
    exact ⟨rfl, rfl⟩
  | type line => cases hact
  | hangUp now => exact h.takes_append (.stop now []) id (t.session.offer_not_mem_stop now [])

/-- Nothing is taken while a line is typed. -/
theorem takes_type (t : Terminal) (line : String) : (Act.type line).takes t = [] := by
  show t.session.engine.elim [] _ = []
  cases t.session.engine <;> rfl

/-- An act that types nothing leaves the account as it is. -/
theorem taken_cons_append {act : Act} {acts : List Act} {text : List Char}
    (hact : act.line? = none) (h : t.session.Loaded)
    (hrest : (act.apply t).taken acts ++ (t.after (act :: acts)).session.transcript.unread =
      (act.apply t).session.transcript.unread ++ text) :
    t.taken (act :: acts) ++ (t.after (act :: acts)).session.transcript.unread =
      t.session.transcript.unread ++ text := by
  rw [taken, List.append_assoc, hrest, ← List.append_assoc, (takes_append act hact h).1]

/-- All that was typed was taken, in the order of typing, or is left to
read. -/
theorem Script.balance {acts : List Act} (h : Script t lines acts)
    (hloaded : t.session.Loaded) (hopening : t.session.transcript.opening = false) :
    t.taken acts ++ (t.after acts).session.transcript.unread =
      t.session.transcript.unread ++
        (typed acts).flatMap fun line => (Text.endLine line).toList := by
  -- The record is the same before and after every act but one: the
  -- account changes when a line is typed.
  induction h with
  | done t lines => exact (List.append_nil _).symm
  | @burst t lines acts now _ ih =>
    refine taken_cons_append rfl hloaded (ih (loaded_apply hloaded (.burst now)) ?_)
    exact (takes_append (.burst now) rfl hloaded).2.trans hopening
  | @flush t lines acts _ ih =>
    refine taken_cons_append rfl hloaded (ih (loaded_apply hloaded .flush) ?_)
    exact (takes_append .flush rfl hloaded).2.trans hopening
  | @hangUp t acts now _ ih =>
    refine taken_cons_append rfl hloaded (ih (loaded_apply hloaded (.hangUp now)) ?_)
    exact (takes_append (.hangUp now) rfl hloaded).2.trans hopening
  | @type t lines acts line hnothing _ ih =>
    -- The line replaces what is left to read, and nothing is left.
    obtain ⟨-, hclosed, hunread⟩ := t.session.transcript.offer_endLine line
    have hempty : t.session.transcript.unread = [] := by
      simpa [Transcript.hasPending] using hnothing
    have hrest := ih (loaded_apply hloaded (.type line)) hclosed
    rw [taken, takes_type, List.nil_append, hempty, List.nil_append]
    refine hrest.trans ?_
    rw [hopening] at hunread
    show (t.session.transcript.offer _).2.unread ++ _ = _
    rw [hunread]
    rfl

end Acts

/-! ### The terminal loses nothing -/

/-- Where a run that began on terminal `t` stands after the acts
`past`. -/
structure Faithful (mode : InputMode) (lines : List (Option String)) (t : Terminal)
    (past : List Act) : Prop where
  /-- The output is the beginning of the transcript, and `shown` is its
  length. -/
  shows : (t.after past).Shows
  /-- The output ends at a boundary of the transcript's encoding. -/
  boundary : (t.after past).output.rawEndPos.IsValid (t.after past).session.transcript.contents
  /-- The lines were typed in order, each of them once. -/
  typed_prefix : (typed past).map some <+: lines
  /-- All that was typed was taken by the program, in that order, or is
  left to read. -/
  balance : mode = .interactive →
    t.taken past ++ (t.after past).session.transcript.unread =
      (typed past).flatMap fun line => (Text.endLine line).toList
  /-- If the lines are those of a text, the program has taken the
  beginning of that text. -/
  taken_prefix : mode = .interactive → ∀ text : String, lines = Text.inputLines text.toUTF8 →
    t.taken past <+: (Text.endText text).toList

/-- What can be said of a run that begins on terminal `t`. -/
structure LosesNothing (clock : Nat → Nat) (mode : InputMode) (turns turn : Nat) (t : Terminal)
    (lines : List (Option String)) : Prop where
  faithful : ∀ past, past <+: acts clock turns turn t lines → Faithful mode lines t past
  /-- A line is typed when nothing is left to read, and it is accepted. -/
  accepted : ∀ past line, past ++ [.type line] <+: acts clock turns turn t lines →
    ¬ (t.after past).session.transcript.hasPending ∧
      ((t.after past).session.offer
        ((t.after past).session.transcript.contents ++ Text.endLine line)).1 = .accepted
  /-- A run that returns has done its acts, has written out the whole
  transcript, and has typed the lines that it does not give back. A line
  that is no text is lost, and it ends the run. -/
  returned : ∀ ending t' rest, run clock turns turn t lines = some (ending, t', rest) →
    t' = t.after (acts clock turns turn t lines) ∧
      t'.output = t'.session.transcript.contents ∧
      lines = (typed (acts clock turns turn t lines)).map some ++
        ((if ending = .undecodable then [none] else []) ++ rest)
  /-- A run that has not returned goes on from where its acts have left
  it, with the lines that were not typed. -/
  continued : run clock turns turn t lines = none → ∀ more,
    run clock (turns + more) turn t lines =
      run clock more (turn + turns) (t.after (acts clock turns turn t lines))
        (lines.drop (typed (acts clock turns turn t lines)).length)

section Scripts

variable {t : Terminal} {lines : List (Option String)} {past more : List Act}

/-- Where the lines of a text are typed, only the beginning of the text
can be taken. -/
theorem taken_prefix_of_typed {taken unread : List Char} {typed : List String} {text : String}
    (htyped : typed.map some <+: Text.inputLines text.toUTF8)
    (hbalance : taken ++ unread = typed.flatMap fun line => (Text.endLine line).toList) :
    taken <+: (Text.endText text).toList := by
  -- All input lines are text, so that the typed ones are the first lines
  -- of the text.
  have hlines : typed <+: (Text.cutText text.toList).map String.ofList := by
    rw [Text.inputLines_toUTF8] at htyped
    simpa [List.filterMap_map, Function.comp_def] using htyped.filterMap id
  have hall : ((Text.cutText text.toList).map String.ofList).flatMap
      (fun line => (Text.endLine line).toList) = (Text.endText text).toList := by
    rw [List.flatMap_map, Text.flatMap_endLine_cutText, String.ofList_toList]
  obtain ⟨rest, hrest⟩ := hlines
  rw [← hall, ← hrest, List.flatMap_append, ← hbalance, List.append_assoc]
  exact List.prefix_append _ _

/-- A script from a fresh transcript is faithful at each of its points.
-/
theorem Script.faithful {mode : InputMode} (h : Script t lines (past ++ more)) (hshows : t.Shows)
    (hloaded : t.session.Loaded) (hfresh : t.session.transcript = .fresh mode) :
    Faithful mode lines t past := by
  obtain ⟨hpast, rest, hlines, -⟩ := h.split
  have htyped : (typed past).map some <+: lines := ⟨rest, hlines.symm⟩
  have hbalance (hmode : mode = .interactive) :
      t.taken past ++ (t.after past).session.transcript.unread =
        (typed past).flatMap fun line => (Text.endLine line).toList := by
    subst hmode
    -- Only a staged transcript treats its first record as special.
    have hopening : t.session.transcript.opening = false := by rw [hfresh]; rfl
    have hall := hpast.balance hloaded hopening
    rw [hfresh] at hall
    exact hall.trans (List.nil_append _)
  refine ⟨hshows.after past, (hshows.after past).isValid, htyped, hbalance, ?_⟩
  rintro hmode text rfl
  exact taken_prefix_of_typed htyped (hbalance hmode)

/-- A line of a script is typed when nothing is left to read, and it is
accepted. -/
theorem Script.accepted {line : String} (h : Script t lines (past ++ .type line :: more)) :
    ¬ (t.after past).session.transcript.hasPending ∧
      ((t.after past).session.offer
        ((t.after past).session.transcript.contents ++ Text.endLine line)).1 = .accepted := by
  obtain ⟨-, rest, -, htype⟩ := h.split
  cases htype with
  | type _ hnothing _ =>
    exact ⟨hnothing, ((t.after past).session.transcript.offer_endLine line).1⟩

end Scripts

/-- A terminal on which lines are not echoed loses nothing, whatever the
program, the input and the clock are, and whatever its session did
before. -/
theorem terminal_loses_nothing (s : Session) (engine : Engine) (mode : InputMode) (now : Nat)
    (clock : Nat → Nat) (turns turn : Nat) (lines : List (Option String)) :
    LosesNothing clock mode turns turn (new false (s.run mode now (.ok engine)).2) lines := by
  have hshows := shows_new (s.run mode now (.ok engine)).2
  have hloaded : (new false (s.run mode now (.ok engine)).2).session.Loaded :=
    s.loaded_run mode now engine
  have hfresh : (new false (s.run mode now (.ok engine)).2).session.transcript = .fresh mode := rfl
  -- Nothing else about the first terminal is used.
  generalize new false (s.run mode now (.ok engine)).2 = t at hshows hloaded hfresh
  have hscript := script_acts clock turns turn hloaded lines
  refine ⟨?_, ?_, fun _ _ _ => result_of_run hshows, run_of_eq_none⟩
  · rintro past ⟨more, hmore⟩
    rw [← hmore] at hscript
    exact hscript.faithful hshows hloaded hfresh
  · rintro past line ⟨more, hmore⟩
    rw [← hmore, List.append_assoc] at hscript
    exact hscript.accepted

end Terminal

end EsoHost
