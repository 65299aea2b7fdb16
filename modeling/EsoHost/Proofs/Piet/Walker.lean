import Mathlib.Data.Set.Card
import EsoHost.Piet.Machine
import EsoHost.Proofs.Piet.Exit
import EsoHost.Proofs.Piet.Walk

/-!
# `EsoHost.Proofs.Piet.Walker`: Piet read off the grid

A `Walker` runs a program without compiling it. It stands on a codel
of the grid with a heading, and has a stack and a transcript; there
are no blocks and no exit tables. `Walker.Goes` says where it goes:

* on white it slides;
* on color it looks at the region of its codel, and tries headings in
  the order of `Heading.tried` until the exit codel of the region has
  an open codel beyond it. It slides if that codel is white, and else
  executes the instruction between the two colors, with the number of
  codels of the region as the value;
* if eight headings fail, it is blocked.

`Walker.Step` is one step, and `Walker.Runs` any sequence of steps,
stops and edits of the transcript. A step has one outcome only
(`Walker.Step.unique`), and so has a run (`Walker.Runs.unique`).
-/

set_option autoImplicit false

namespace EsoHost.Piet

/-! ### Ways out of a region -/

/-- The heading of attempt number `n`: the chooser is toggled and the
pointer turned by turns, the chooser first. -/
def Heading.tried (h : Heading) : Nat → Heading
  | 0 => h
  | n + 1 => if n % 2 = 0 then (h.tried n).toggled else (h.tried n).turned

namespace Grid

/-- Under heading `h`, the region of `c` is left onto `entry`: that
codel lies beyond the exit codel of the region, and is open. -/
def Leads (g : Grid) (c : Codel) (h : Heading) (entry : Codel) : Prop :=
  ∃ exit, IsExit (g.region c) h exit ∧ exit.towards? h.dp = some entry ∧ g.Open entry

/-- Attempt number `n` is the first of the eight to lead out of the
region of a stance, and leads onto `entry`. -/
structure Leaves (g : Grid) (s : Stance) (n : Nat) (entry : Codel) : Prop where
  lt_eight : n < 8
  closed : ∀ k < n, ∀ e, ¬ g.Leads s.codel (s.heading.tried k) e
  leads : g.Leads s.codel (s.heading.tried n) entry

variable {g : Grid} {s : Stance} {c : Codel}

/-- A heading leads onto one codel at most. -/
theorem Leads.unique {h : Heading} {e e' : Codel} (he : g.Leads c h e) (he' : g.Leads c h e') :
    e = e' := by
  obtain ⟨exit, hexit, hnext, -⟩ := he
  obtain ⟨exit', hexit', hnext', -⟩ := he'
  rw [hexit.unique hexit', hnext'] at hnext
  exact (Option.some.inj hnext).symm

/-- There is one first attempt that leads out. -/
theorem Leaves.unique {n n' : Nat} {e e' : Codel} (h : g.Leaves s n e) (h' : g.Leaves s n' e') :
    n = n' ∧ e = e' := by
  rcases Nat.lt_trichotomy n n' with hlt | rfl | hlt
  · exact absurd h.leads (h'.closed n hlt e)
  · exact ⟨rfl, h.leads.unique h'.leads⟩
  · exact absurd h'.leads (h.closed n' hlt e')

end Grid

/-! ### Walkers -/

/-- What a run needs when it is read off the grid. -/
structure Walker extends Stance where
  stack : Stack
  transcript : Transcript
  status : Status
  deriving DecidableEq

/-- Where a walker goes. -/
inductive Way where
  | slide (start : Stance)
  | perform (instruction : Instruction) (value : Nat) (arrival : Stance)
  | blocked

namespace Walker

/-- At the top left codel, facing right, the chooser to the left. A
black codel is no place to start. -/
def start (g : Grid) (t : Transcript) : Walker where
  codel := .origin
  heading := ⟨.right, .left⟩
  stack := .empty
  transcript := t
  status := if g.Open .origin then .running else .halted .blocked

/-- The way on from a stance. -/
inductive Goes (g : Grid) (s : Stance) : Way → Prop where
  | white (onWhite : g.IsWhite s.codel) : Goes g s (.slide s)
  | enter (n : Nat) (entry : Codel) (onColor : g.IsColored s.codel) (leaves : g.Leaves s n entry)
      (ontoWhite : g.IsWhite entry) : Goes g s (.slide ⟨entry, s.heading.tried n⟩)
  | perform (n : Nat) (entry : Codel) (here there : Color) (instruction : Instruction)
      (leaves : g.Leaves s n entry) (color : g.get? s.codel = some here)
      (color' : g.get? entry = some there)
      (between : Instruction.between? here there = some instruction) :
      Goes g s (.perform instruction (g.region s.codel).ncard ⟨entry, s.heading.tried n⟩)
  | blocked (onColor : g.IsColored s.codel)
      (closed : ∀ n < 8, ∀ e, ¬ g.Leads s.codel (s.heading.tried n) e) : Goes g s .blocked

/-- The walker after a slide. -/
def land (w : Walker) : Landing → Walker
  | .colored s => { w with toStance := s, status := .running }
  | .trapped s => { w with toStance := s, status := .halted .blocked }

/-- The walker after an instruction. A read that has to wait changes
nothing. -/
def perform (w : Walker) (policy : ExhaustedInput) (instruction : Instruction) (value : Nat)
    (arrival : Stance) : Walker :=
  match execute policy value ⟨w.stack, arrival.heading, w.transcript⟩ instruction with
  | (.done, f) => ⟨⟨arrival.codel, f.heading⟩, f.stack, f.transcript, .running⟩
  | (.wait, _) => { w with status := .awaitingInput }
  | (.halt reason, f) =>
    { w with stack := f.stack, transcript := f.transcript, status := .halted reason }

/-- One step. -/
inductive Step (g : Grid) (policy : ExhaustedInput) (w : Walker) : Walker → Prop where
  | halted (halted : w.status.isHalted) : Step g policy w w
  | slide (start : Stance) (l : Landing) (live : ¬ w.status.isHalted)
      (goes : Goes g w.toStance (.slide start)) (slides : start.Slides g l) :
      Step g policy w (w.land l)
  | perform (instruction : Instruction) (value : Nat) (arrival : Stance)
      (live : ¬ w.status.isHalted)
      (goes : Goes g w.toStance (.perform instruction value arrival)) :
      Step g policy w (w.perform policy instruction value arrival)
  | blocked (live : ¬ w.status.isHalted) (goes : Goes g w.toStance .blocked) :
      Step g policy w { w with status := .halted .blocked }

end Walker

/-- What the host of a program in execution can do: have it make a step,
stop it, or offer an edit of the transcript. -/
inductive Command where
  | step
  | stop
  | offer (text : String)
  deriving DecidableEq

/-- A run of a walker, command by command. -/
inductive Walker.Runs (g : Grid) (policy : ExhaustedInput) :
    List Command → Walker → Walker → Prop where
  | done (w : Walker) : Runs g policy [] w w
  | step {w w₁ w₂ : Walker} {commands : List Command} (first : Step g policy w w₁)
      (rest : Runs g policy commands w₁ w₂) : Runs g policy (.step :: commands) w w₂
  | stop {w w₂ : Walker} {commands : List Command}
      (rest : Runs g policy commands { w with status := w.status.stop } w₂) :
      Runs g policy (.stop :: commands) w w₂
  | offer {w w₂ : Walker} {commands : List Command} (text : String)
      (rest : Runs g policy commands { w with transcript := (w.transcript.offer text).2 } w₂) :
      Runs g policy (.offer text :: commands) w w₂

namespace Walker

variable {g : Grid} {policy : ExhaustedInput} {s : Stance}

/-! ### One outcome only -/

/-- An instruction leads away from color. -/
theorem isColored_of_between? {c : Codel} {here there : Color} {instruction : Instruction}
    (hcolor : g.get? c = some here) (h : Instruction.between? here there = some instruction) :
    g.IsColored c := by
  cases here with
  | chromatic hue lightness => exact ⟨hue, lightness, hcolor⟩
  | white => exact absurd h (by simp [Instruction.between?, Color.stepsTo?])
  | black => exact absurd h (by simp [Instruction.between?, Color.stepsTo?])

/-- No instruction leads onto white. -/
theorem not_between?_white {here : Color} {instruction : Instruction} :
    Instruction.between? here .white ≠ some instruction := by
  cases here <;> simp [Instruction.between?, Color.stepsTo?]

/-- There is one way on from a stance. -/
theorem Goes.unique {way way' : Way} (h : Goes g s way) (h' : Goes g s way') : way = way' := by
  -- Every pair of ways is told apart by the color underfoot, by the codel
  -- beyond, or by whether there is a way out at all.
  cases h with
  | white hwhite =>
    cases h' with
    | white _ => rfl
    | enter _ _ hcolor _ _ => exact absurd hwhite hcolor.not_isWhite
    | perform _ _ _ _ _ _ hhere _ hbetween =>
      exact absurd hwhite (isColored_of_between? hhere hbetween).not_isWhite
    | blocked hcolor _ => exact absurd hwhite hcolor.not_isWhite
  | enter n entry hcolor hleaves hwhite =>
    cases h' with
    | white hwhite' => exact absurd hwhite' hcolor.not_isWhite
    | enter n' entry' _ hleaves' _ =>
      obtain ⟨rfl, rfl⟩ := hleaves.unique hleaves'
      rfl
    | perform n' entry' _ _ _ hleaves' _ hthere hbetween =>
      obtain ⟨rfl, rfl⟩ := hleaves.unique hleaves'
      cases Option.some.inj (hthere.symm.trans hwhite)
      exact absurd hbetween not_between?_white
    | blocked _ hclosed => exact absurd hleaves.leads (hclosed n hleaves.lt_eight entry)
  | perform n entry here there instruction hleaves hhere hthere hbetween =>
    cases h' with
    | white hwhite' =>
      exact absurd hwhite' (isColored_of_between? hhere hbetween).not_isWhite
    | enter n' entry' _ hleaves' hwhite' =>
      obtain ⟨rfl, rfl⟩ := hleaves.unique hleaves'
      cases Option.some.inj (hthere.symm.trans hwhite')
      exact absurd hbetween not_between?_white
    | perform n' entry' here' there' instruction' hleaves' hhere' hthere' hbetween' =>
      obtain ⟨rfl, rfl⟩ := hleaves.unique hleaves'
      cases Option.some.inj (hhere.symm.trans hhere')
      cases Option.some.inj (hthere.symm.trans hthere')
      cases Option.some.inj (hbetween.symm.trans hbetween')
      rfl
    | blocked _ hclosed => exact absurd hleaves.leads (hclosed n hleaves.lt_eight entry)
  | blocked hcolor hclosed =>
    cases h' with
    | white hwhite' => exact absurd hwhite' hcolor.not_isWhite
    | enter n' entry' _ hleaves' _ =>
      exact absurd hleaves'.leads (hclosed n' hleaves'.lt_eight entry')
    | perform n' entry' _ _ _ hleaves' _ _ _ =>
      exact absurd hleaves'.leads (hclosed n' hleaves'.lt_eight entry')
    | blocked _ _ => rfl

/-- A slide starts on white. -/
theorem Goes.isWhite {start : Stance} (h : Goes g s (.slide start)) : g.IsWhite start.codel := by
  cases h with
  | white hwhite => exact hwhite
  | enter _ _ _ _ hwhite => exact hwhite

/-- A step has one outcome. -/
theorem Step.unique {w w₁ w₂ : Walker} (h : Step g policy w w₁) (h' : Step g policy w w₂) :
    w₁ = w₂ := by
  cases h with
  | halted hhalted =>
    cases h' with
    | halted _ => rfl
    | slide _ _ hlive _ _ => exact absurd hhalted hlive
    | perform _ _ _ hlive _ => exact absurd hhalted hlive
    | blocked hlive _ => exact absurd hhalted hlive
  | slide start l hlive hgoes hslides =>
    cases h' with
    | halted hhalted => exact absurd hhalted hlive
    | slide start' l' _ hgoes' hslides' =>
      cases hgoes.unique hgoes'
      rw [hslides.unique hslides']
    | perform _ _ _ _ hgoes' => exact absurd (hgoes.unique hgoes') (by simp)
    | blocked _ hgoes' => exact absurd (hgoes.unique hgoes') (by simp)
  | perform instruction value arrival hlive hgoes =>
    cases h' with
    | halted hhalted => exact absurd hhalted hlive
    | slide _ _ _ hgoes' _ => exact absurd (hgoes.unique hgoes') (by simp)
    | perform _ _ _ _ hgoes' =>
      cases hgoes.unique hgoes'
      rfl
    | blocked _ hgoes' => exact absurd (hgoes.unique hgoes') (by simp)
  | blocked hlive hgoes =>
    cases h' with
    | halted hhalted => exact absurd hhalted hlive
    | slide _ _ _ hgoes' _ => exact absurd (hgoes.unique hgoes') (by simp)
    | perform _ _ _ _ hgoes' => exact absurd (hgoes.unique hgoes') (by simp)
    | blocked _ _ => rfl

/-- A run has one outcome. -/
theorem Runs.unique {commands : List Command} {w w₁ w₂ : Walker}
    (h : Runs g policy commands w w₁) (h' : Runs g policy commands w w₂) : w₁ = w₂ := by
  induction h with
  | done w =>
    cases h' with
    | done _ => rfl
  | step first _ ih =>
    cases h' with
    | step first' rest' =>
      cases first.unique first'
      exact ih rest'
  | stop _ ih =>
    cases h' with
    | stop rest' => exact ih rest'
  | offer text _ ih =>
    cases h' with
    | offer _ rest' => exact ih rest'

end Walker

end EsoHost.Piet
