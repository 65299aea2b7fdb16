import Mathlib.Logic.Function.Iterate
import EsoHost.Brainfuck.Machine
import EsoHost.Proofs.Brainfuck.Tree

/-!
# `EsoHost.Proofs.Brainfuck.Evaluation`: jumps mean loops

`Tree.Evaluates` says what a structured program does: a loop evaluates
its body for as long as the cell under the head is not zero. It knows
no places and no jumps. `balanced_source_means_tree` shows that a
machine on a staged transcript halts in the states to which the tree of
its source evaluates, in no other ones, and runs for ever if there is
none.

* From evaluation to machine (`Tree.Evaluates.path`), by induction on
  the evaluation. A closing bracket goes where its partner would go
  (`Command.hop_jumpBack`), so going on after the body is the same as
  trying the loop again.
* From machine to evaluation (`Path.exists_evaluates`), by induction on
  the number of steps, because one loop is tried again and again. What
  is left to do after each part of the tree is a shorter path.
-/

set_option autoImplicit false

namespace EsoHost.Brainfuck

/-! ### What a tree does -/

/-- What a program works on. -/
structure Store where
  tape : Tape
  transcript : Transcript
  deriving DecidableEq

namespace Store

/-- The byte under the head. -/
def cell (s : Store) : UInt8 := s.tape.cells[s.tape.head]

/-- Replaces the byte under the head. -/
def write (s : Store) (byte : UInt8) : Store :=
  { s with tape.cells := s.tape.cells.set s.tape.head byte }

/-- Moves the head to a cell, counting round the ring. -/
def moveTo (s : Store) (n : Nat) : Store :=
  { s with tape.head := ⟨n % 65536, Nat.mod_lt n (by decide)⟩ }

/-- No read waits. -/
def Staged (s : Store) : Prop := s.transcript.mode = .staged

end Store

/-- What a command does. The head moves on a ring of 65536 cells, and
bytes wrap. A read without input does nothing. -/
def Atom.effect : Atom → Store → Store
  | right, s => s.moveTo (s.tape.head.val + 1)
  | left, s => s.moveTo (65535 + s.tape.head.val)
  | increment, s => s.write (s.cell + 1)
  | decrement, s => s.write (s.cell - 1)
  | output, s =>
    let printed := String.singleton (Char.ofNat s.cell.toNat)
    { s with transcript.contents := s.transcript.contents ++ printed }
  | input, ⟨tape, ⟨mode, contents, [], opening⟩⟩ => ⟨tape, ⟨mode, contents, [], opening⟩⟩
  | input, ⟨tape, ⟨mode, contents, c :: unread, opening⟩⟩ =>
    Store.write ⟨tape, ⟨mode, contents, unread, opening⟩⟩ (UInt8.ofNat c.toNat)

/-- Evaluating the tree changes the first store into the second. A tree
that runs for ever evaluates to nothing. -/
inductive Tree.Evaluates : Tree → Store → Store → Prop where
  | done (s : Store) : Evaluates .done s s
  | atom {a : Atom} {rest : Tree} {s s' : Store} (hrest : Evaluates rest (a.effect s) s') :
      Evaluates (.atom a rest) s s'
  | skip {body rest : Tree} {s s' : Store} (hzero : s.cell = 0) (hrest : Evaluates rest s s') :
      Evaluates (.loop body rest) s s'
  | again {body rest : Tree} {s s₁ s' : Store} (hcell : s.cell ≠ 0)
      (hbody : Evaluates body s s₁) (hloop : Evaluates (.loop body rest) s₁ s') :
      Evaluates (.loop body rest) s s'

/-! ### What a command does to place and store -/

/-- The place and the store after a command. -/
def Command.hop (c : Command) (place : Nat) (s : Store) : Nat × Store :=
  let effect := c.execute place s.tape s.transcript
  (effect.next, ⟨effect.tape, effect.transcript⟩)

/-- On a staged transcript every command goes on, and the transcript
stays staged. -/
theorem Command.execute_staged (c : Command) (place : Nat) {s : Store} (h : s.Staged) :
    (c.execute place s.tape s.transcript).status = .running ∧ (c.hop place s).2.Staged := by
  cases c with
  | input =>
    obtain ⟨tape, ⟨mode, contents, unread, opening⟩⟩ := s
    obtain rfl : mode = .staged := h
    cases unread <;> exact ⟨rfl, rfl⟩
  | _ => exact ⟨rfl, h⟩

/-- A command that is not a bracket has its effect, and the next place
follows. -/
theorem Atom.hop_command (a : Atom) (place : Nat) {s : Store} (h : s.Staged) :
    a.command.hop place s = (place + 1, a.effect s) := by
  cases a with
  | input =>
    obtain ⟨tape, ⟨mode, contents, unread, opening⟩⟩ := s
    obtain rfl : mode = .staged := h
    cases unread <;> rfl
  | _ => rfl

/-- The transcript stays staged. -/
theorem Atom.effect_staged (a : Atom) {s : Store} (h : s.Staged) : (a.effect s).Staged := by
  have hhop := (a.command.execute_staged 0 h).2
  rw [a.hop_command 0 h] at hhop
  exact hhop

/-- It stays staged through a whole evaluation. -/
theorem Tree.Evaluates.staged {tree : Tree} {s s' : Store} (heval : tree.Evaluates s s')
    (h : s.Staged) : s'.Staged := by
  induction heval with
  | done => exact h
  | atom _ ih => exact ih (Atom.effect_staged _ h)
  | skip _ _ ih => exact ih h
  | again _ _ _ ihBody ihLoop => exact ihLoop (ihBody h)

/-- An opening bracket leaves the store as it is. It goes past its
partner if the cell is zero, and on if not. -/
theorem Command.hop_jumpForward (place close : Nat) (s : Store) :
    (jumpForward close).hop place s = ((if s.cell = 0 then close else place) + 1, s) := rfl

/-- A closing bracket goes where its partner would go. -/
theorem Command.hop_jumpBack (start close : Nat) (s : Store) :
    (jumpBack start).hop close s = (jumpForward close).hop start s := rfl

/-! ### Paths through a program -/

/-- The program leads in so many steps from one place and store to
another. -/
inductive Path (program : Program) : Nat → Nat × Store → Nat × Store → Prop where
  | refl (x : Nat × Store) : Path program 0 x x
  | step {c : Command} {k : Nat} {x y : Nat × Store} (hc : program[x.1]? = some c)
      (hrest : Path program k (c.hop x.1 x.2) y) : Path program (k + 1) x y

section Path

variable {program : Program}

/-- Paths can be put together. -/
theorem Path.trans {j k : Nat} {x y z : Nat × Store} (hxy : Path program j x y)
    (hyz : Path program k y z) : Path program (j + k) x z := by
  induction hxy with
  | refl => rwa [Nat.zero_add]
  | step hc _ ih =>
    rw [Nat.add_right_comm]
    exact .step hc (ih hyz)

/-- A path that ends elsewhere starts with the command at its start. -/
theorem Path.exists_rest {c : Command} {k place : Nat} {s : Store} {y : Nat × Store}
    (hpath : Path program k (place, s) y) (hc : program[place]? = some c)
    (hne : y.1 ≠ place) : ∃ j, k = j + 1 ∧ Path program j (c.hop place s) y := by
  cases hpath with
  | refl => exact absurd rfl hne
  | step hc' hrest =>
    obtain rfl : _ = c := Option.some.inj (hc'.symm.trans hc)
    exact ⟨_, rfl, hrest⟩

/-- The commands of the tree stand in the program, the first of them at
`place`. -/
def Tree.At (program : Program) : Tree → (place : Nat) → Prop
  | done, _ => True
  | atom a rest, place => program[place]? = some a.command ∧ rest.At program (place + 1)
  | loop body rest, place =>
    program[place]? = some (.jumpForward (place + body.size + 1)) ∧
    body.At program (place + 1) ∧
    program[place + body.size + 1]? = some (.jumpBack place) ∧
    rest.At program (place + body.size + 2)

/-- The place of a command is the number of commands before it. -/
theorem getElem?_of_toList_eq {before after : List Command} {c : Command} {place : Nat}
    (hplace : before.length = place) (h : program.toList = before ++ c :: after) :
    program[place]? = some c := by
  rw [← Array.getElem?_toList, h, List.getElem?_append_right (Nat.le_of_eq hplace), hplace,
    Nat.sub_self]
  rfl

/-- If the commands of a tree are a stretch of the program, the tree
stands where the stretch starts. -/
theorem Tree.at_of_assemble {tree : Tree} {place : Nat} (before after : List Command)
    (hplace : before.length = place)
    (h : program.toList = before ++ (tree.assemble place ++ after)) :
    tree.At program place := by
  induction tree generalizing place before after with
  | done => trivial
  | atom a rest ih =>
    have h : program.toList
        = before ++ a.command :: (rest.assemble (place + 1) ++ after) := h
    refine ⟨getElem?_of_toList_eq hplace h, ?_⟩
    exact ih (before ++ [a.command]) after (by simp [hplace]) (by simpa using h)
  | loop body rest ihBody ihRest =>
    have h : program.toList
        = before ++ .jumpForward (place + body.size + 1) ::
            (body.assemble (place + 1) ++
              .jumpBack place :: (rest.assemble (place + body.size + 2) ++ after)) := by
      simpa [assemble] using h
    -- What stands before the closing bracket has as many commands as its
    -- place says.
    have hclose : (before ++ Command.jumpForward (place + body.size + 1) ::
        body.assemble (place + 1)).length = place + body.size + 1 := by
      simp [hplace, Nat.add_assoc]
    refine ⟨getElem?_of_toList_eq hplace h, ?_, ?_, ?_⟩
    · exact ihBody (before ++ [.jumpForward (place + body.size + 1)])
        (.jumpBack place :: (rest.assemble (place + body.size + 2) ++ after))
        (by simp [hplace]) (by simpa using h)
    · exact getElem?_of_toList_eq hclose (by simpa using h)
    · exact ihRest (before ++ .jumpForward (place + body.size + 1) ::
          (body.assemble (place + 1) ++ [.jumpBack place])) after
        (by simp [hplace, Nat.add_assoc]) (by simpa using h)

/-! ### Evaluations and paths -/

/-- What a tree evaluates to is where its commands lead. -/
theorem Tree.Evaluates.path {tree : Tree} {place : Nat} {s s' : Store}
    (heval : tree.Evaluates s s') (hat : tree.At program place) (hs : s.Staged) :
    ∃ k, Path program k (place, s) (place + tree.size, s') := by
  induction heval generalizing place with
  | done s => exact ⟨0, .refl _⟩
  | @atom a rest s s' _ ih =>
    obtain ⟨k, hpath⟩ := ih hat.2 (a.effect_staged hs)
    refine ⟨k + 1, .step hat.1 ?_⟩
    rw [a.hop_command place hs]
    rwa [show place + (Tree.atom a rest).size = place + 1 + rest.size by
      simp only [Tree.size]; omega]
  | @skip body rest s s' hzero _ ih =>
    obtain ⟨k, hpath⟩ := ih hat.2.2.2 hs
    refine ⟨k + 1, .step hat.1 ?_⟩
    rw [Command.hop_jumpForward, if_pos hzero]
    rwa [show place + (Tree.loop body rest).size = place + body.size + 2 + rest.size by
      simp only [Tree.size]; omega]
  | @again body rest s s₁ s' hcell hbody _ ihBody ihLoop =>
    obtain ⟨j, hj⟩ := ihBody hat.2.1 hs
    obtain ⟨k, hk⟩ := ihLoop hat (hbody.staged hs)
    -- The loop is tried again from its end: its path starts with the same hop.
    obtain ⟨i, -, hi⟩ := hk.exists_rest hat.1 (by simp only [Tree.size]; omega)
    rw [← Command.hop_jumpBack] at hi
    rw [Nat.add_right_comm] at hj
    refine ⟨j + (i + 1) + 1, .step hat.1 ?_⟩
    rw [Command.hop_jumpForward, if_neg hcell]
    exact hj.trans (.step hat.2.2.1 hi)

/-- A path to the end of the program starts with an evaluation of each
tree on its way. What is left of it is no longer than the path. -/
theorem Path.exists_evaluates {tree : Tree} {k place : Nat} {s : Store} {y : Nat × Store}
    (hpath : Path program k (place, s) y) (hend : program[y.1]? = none)
    (hat : tree.At program place) (hs : s.Staged) :
    ∃ j s', j ≤ k ∧ tree.Evaluates s s' ∧ Path program j (place + tree.size, s') y := by
  -- There is no command where the path ends, so it goes on from every
  -- place that has one.
  have hne {place : Nat} {c : Command} (hc : program[place]? = some c) : y.1 ≠ place := by
    intro h
    rw [h, hc] at hend
    cases hend
  -- On the number of steps and not on the tree: the last case comes back
  -- to the whole loop with a shorter path.
  induction k using Nat.strong_induction_on generalizing tree place s with
  | h k ih =>
    cases tree with
    | done => exact ⟨k, s, Nat.le_refl k, .done s, hpath⟩
    | atom a rest =>
      obtain ⟨i, rfl, hi⟩ := hpath.exists_rest hat.1 (hne hat.1)
      rw [a.hop_command place hs] at hi
      obtain ⟨j, s', hj, heval, hrest⟩ := ih i (by omega) hi hat.2 (a.effect_staged hs)
      refine ⟨j, s', by omega, .atom heval, ?_⟩
      rwa [show place + (Tree.atom a rest).size = place + 1 + rest.size by
        simp only [Tree.size]; omega]
    | loop body rest =>
      obtain ⟨i, rfl, hi⟩ := hpath.exists_rest hat.1 (hne hat.1)
      rw [Command.hop_jumpForward] at hi
      by_cases hcell : s.cell = 0
      · rw [if_pos hcell] at hi
        obtain ⟨j, s', hj, heval, hrest⟩ := ih i (by omega) hi hat.2.2.2 hs
        refine ⟨j, s', by omega, .skip hcell heval, ?_⟩
        rwa [show place + (Tree.loop body rest).size = place + body.size + 2 + rest.size by
          simp only [Tree.size]; omega]
      · rw [if_neg hcell] at hi
        obtain ⟨j, s₁, hj, hbody, hclose⟩ := ih i (by omega) hi hat.2.1 hs
        rw [Nat.add_right_comm] at hclose
        -- From the closing bracket on, the path is one from the opening bracket.
        obtain ⟨l, rfl, hl⟩ := hclose.exists_rest hat.2.2.1 (hne hat.2.2.1)
        rw [Command.hop_jumpBack] at hl
        obtain ⟨j, s', hj', hloop, hrest⟩ :=
          ih (l + 1) (by omega) (.step hat.1 hl) hat (hbody.staged hs)
        exact ⟨j, s', by omega, .again hcell hbody hloop, hrest⟩

/-! ### Machines and paths -/

namespace Machine

/-- The machine and its transcript after so many steps. -/
def afterSteps (n : Nat) (s : Machine × Transcript) : Machine × Transcript :=
  (fun s => s.1.step s.2)^[n] s

/-- A machine of which nothing but the state, the place, the store and
the number of steps is left open. -/
def within (program : Program) (status : Status) (steps : Nat) (x : Nat × Store) :
    Machine × Transcript :=
  (⟨program, x.1, x.2.tape, status, steps⟩, x.2.transcript)

/-- The first step of a running machine is the hop of its command. -/
theorem afterSteps_succ_of_some {n steps : Nat} {x : Nat × Store} {c : Command}
    (hc : program[x.1]? = some c) (hx : x.2.Staged) :
    afterSteps (n + 1) (within program .running steps x)
      = afterSteps n (within program .running (steps + 1) (c.hop x.1 x.2)) := by
  have hrunning := (c.execute_staged x.1 hx).1
  show afterSteps n ((within program .running steps x).1.step x.2.transcript) = _
  congr 1
  simp only [within, step, Status.isHalted, hc, hrunning]
  rfl

/-- A machine that has come to the end stays as it is. -/
theorem afterSteps_halted (n steps : Nat) (x : Nat × Store) :
    afterSteps n (within program (.halted .endOfProgram) steps x)
      = within program (.halted .endOfProgram) steps x :=
  Function.iterate_fixed rfl n

/-- A machine that stands behind the last command halts in one step. -/
theorem afterSteps_succ_of_none {n steps : Nat} {x : Nat × Store}
    (hend : program[x.1]? = none) :
    afterSteps (n + 1) (within program .running steps x)
      = within program (.halted .endOfProgram) steps x := by
  have hstep : (within program .running steps x).1.step x.2.transcript
      = within program (.halted .endOfProgram) steps x := by
    simp only [within, step, Status.isHalted, hend]
    rfl
  show afterSteps n ((within program .running steps x).1.step x.2.transcript) = _
  rw [hstep, afterSteps_halted]

/-- A machine follows a path to the end of the program, and halts with
one step more. -/
theorem afterSteps_of_path (steps : Nat) {k : Nat} {x y : Nat × Store}
    (hpath : Path program k x y) (hend : program[y.1]? = none) (hx : x.2.Staged) :
    ∃ steps', afterSteps (k + 1) (within program .running steps x)
      = within program (.halted .endOfProgram) steps' y := by
  induction hpath generalizing steps with
  | refl x => exact ⟨steps, afterSteps_succ_of_none hend⟩
  | step hc _ ih =>
    rw [afterSteps_succ_of_some hc hx]
    exact ih (steps + 1) hend (Command.execute_staged _ _ hx).2

/-- A machine has either made all its steps, or came to the end of the
program before. -/
theorem afterSteps_cases (program : Program) (n steps : Nat) {x : Nat × Store}
    (hx : x.2.Staged) :
    (∃ steps' y, afterSteps n (within program .running steps x)
        = within program .running steps' y) ∨
      ∃ k steps' y, Path program k x y ∧ program[y.1]? = none ∧
        afterSteps n (within program .running steps x)
          = within program (.halted .endOfProgram) steps' y := by
  induction n generalizing steps x with
  | zero => exact Or.inl ⟨steps, x, rfl⟩
  | succ n ih =>
    -- Either the machine is behind the last command, or its step is a hop
    -- and one step fewer is left.
    cases hc : program[x.1]? with
    | none => exact Or.inr ⟨0, steps, x, .refl x, hc, afterSteps_succ_of_none hc⟩
    | some c =>
      rw [afterSteps_succ_of_some hc hx]
      refine (ih (steps + 1) (c.execute_staged x.1 hx).2).imp_right ?_
      rintro ⟨k, steps', y, hpath, hend, hafter⟩
      exact ⟨k + 1, steps', y, .step hc hpath, hend, hafter⟩

end Machine

/-! ### Refinement -/

/-- Machines on the program do what the tree does, whatever the staged
transcript. -/
structure Realizes (program : Program) (tree : Tree) : Prop where
  /-- They halt, and then at the end of the program, with what the tree
  evaluates to. -/
  halts_iff (t t' : Transcript) (tape : Tape) (ht : t.mode = .staged) :
    tree.Evaluates ⟨.blank, t⟩ ⟨tape, t'⟩ ↔
      ∃ n m, Machine.afterSteps n (.load program, t) = (m, t') ∧
        m.status = .halted .endOfProgram ∧ m.tape = tape
  /-- They never halt if the tree evaluates to nothing. -/
  runs_forever_iff (t : Transcript) (ht : t.mode = .staged) :
    (∀ n, ¬ (Machine.afterSteps n (.load program, t)).1.status.isHalted) ↔
      ∀ s, ¬ tree.Evaluates ⟨.blank, t⟩ s

/-- Evaluating the whole tree is following the program to its end. -/
theorem evaluates_iff_exists_path {tree : Tree} {s s' : Store} (hs : s.Staged) :
    tree.Evaluates s s' ↔
      ∃ k y, Path (tree.assemble 0).toArray k (0, s) y ∧
        (tree.assemble 0).toArray[y.1]? = none ∧ y.2 = s' := by
  have hat : tree.At (tree.assemble 0).toArray 0 :=
    Tree.at_of_assemble [] [] rfl (by simp)
  have hsize : (tree.assemble 0).toArray[0 + tree.size]? = none := by simp
  constructor
  · intro heval
    obtain ⟨k, hpath⟩ := heval.path hat hs
    exact ⟨k, _, hpath, hsize, rfl⟩
  · rintro ⟨k, y, hpath, hend, rfl⟩
    obtain ⟨j, s', -, heval, hrest⟩ := hpath.exists_evaluates hend hat hs
    -- Nothing stands after the tree, so nothing of the path is left.
    cases hrest with
    | refl => exact heval
    | step hc => exact absurd (hc.symm.trans hsize) (by simp)

/-- A machine that has halted shows what the tree evaluates to. -/
theorem evaluates_of_isHalted {tree : Tree} {t : Transcript} (ht : t.mode = .staged) {n : Nat}
    {m : Machine} {t' : Transcript}
    (hafter : Machine.afterSteps n (.load (tree.assemble 0).toArray, t) = (m, t'))
    (hhalted : m.status.isHalted) : tree.Evaluates ⟨.blank, t⟩ ⟨m.tape, t'⟩ := by
  have hs : Store.Staged ⟨.blank, t⟩ := ht
  obtain ⟨steps, y, hy⟩ | ⟨k, steps, y, hpath, hend, hy⟩ :=
    Machine.afterSteps_cases (tree.assemble 0).toArray n 0 (x := (0, ⟨.blank, t⟩)) hs
  · -- It is still running, against the assumption.
    obtain ⟨rfl, rfl⟩ := Prod.mk.inj (hafter.symm.trans hy)
    cases hhalted
  · obtain ⟨rfl, rfl⟩ := Prod.mk.inj (hafter.symm.trans hy)
    exact (evaluates_iff_exists_path hs).mpr ⟨k, y, hpath, hend, rfl⟩

/-- What a tree evaluates to is where a machine halts. -/
theorem exists_halted_of_evaluates {tree : Tree} {t : Transcript} (ht : t.mode = .staged)
    {s : Store} (heval : tree.Evaluates ⟨.blank, t⟩ s) :
    ∃ n m, Machine.afterSteps n (.load (tree.assemble 0).toArray, t) = (m, s.transcript) ∧
      m.status = .halted .endOfProgram ∧ m.tape = s.tape := by
  have hs : Store.Staged ⟨.blank, t⟩ := ht
  obtain ⟨k, y, hpath, hend, rfl⟩ := (evaluates_iff_exists_path hs).mp heval
  obtain ⟨steps, hafter⟩ := Machine.afterSteps_of_path 0 hpath hend hs
  exact ⟨k + 1, _, hafter, rfl, rfl⟩

/-- The commands of a tree realize it. -/
theorem realizes_assemble (tree : Tree) : Realizes (tree.assemble 0).toArray tree where
  halts_iff t t' tape ht := by
    constructor
    · intro heval
      exact exists_halted_of_evaluates ht heval
    · rintro ⟨n, m, hafter, hstatus, rfl⟩
      exact evaluates_of_isHalted ht hafter (by rw [hstatus]; rfl)
  runs_forever_iff t ht := by
    constructor
    · intro hforever s heval
      obtain ⟨n, m, hafter, hstatus, -⟩ := exists_halted_of_evaluates ht heval
      refine hforever n ?_
      rw [hafter, hstatus]
      rfl
    · intro hnothing n hhalted
      exact hnothing _ (evaluates_of_isHalted ht rfl hhalted)

end Path

/-- A source whose brackets are balanced spells one tree and is read as
one program, and the program does what the tree does. -/
theorem balanced_source_means_tree (source : String) (h : Balanced source.toList) :
    ∃ tree program, (∀ tree' : Tree, tree'.Spells source ↔ tree' = tree) ∧
      parse source = .ok program ∧ Realizes program tree := by
  obtain ⟨tree, hspells⟩ := exists_spells_of_balanced h
  refine ⟨tree, _, ?_, parse_of_spells hspells, realizes_assemble tree⟩
  intro tree'
  constructor
  · intro hspells'
    exact hspells.unique hspells'
  · rintro rfl
    exact hspells

/-- A loop in a loop, and comments with and without commands in them. -/
theorem nested_source_means_tree :
    Balanced "in, [then [-] put.]".toList ∧
      ∃ program, parse "in, [then [-] put.]" = .ok program ∧
        Realizes program
          (.atom .input (.loop (.loop (.atom .decrement .done) (.atom .output .done)) .done)) := by
  have hbalanced : Balanced "in, [then [-] put.]".toList := by decide
  refine ⟨hbalanced, ?_⟩
  obtain ⟨tree, program, hspells, hparse, hrealizes⟩ :=
    balanced_source_means_tree "in, [then [-] put.]" hbalanced
  have htree := (hspells (.atom .input
    (.loop (.loop (.atom .decrement .done) (.atom .output .done)) .done))).mp
    (by unfold Tree.Spells; decide)
  rw [htree]
  exact ⟨program, hparse, hrealizes⟩

end EsoHost.Brainfuck
