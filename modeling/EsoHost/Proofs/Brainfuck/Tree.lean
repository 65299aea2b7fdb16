import Mathlib.Data.List.TakeWhile
import Mathlib.Tactic.Common
import EsoHost.Brainfuck.Program

/-!
# `EsoHost.Proofs.Brainfuck.Tree`: Brainfuck as a syntax tree

A `Tree` is a program of commands and nested loops. A source spells a
tree (`Tree.Spells`) if the tree's text is what is left of the source
without its comments.

* `exists_spells_of_balanced`: a source whose brackets are balanced
  spells a tree, and `Tree.Spells.unique`: it spells one only.
* `parse_of_spells`: reading a source gives the commands of its tree
  in order, and each bracket knows the place of its partner
  (`Tree.assemble`). An open bracket is written with a place of zero
  first; it is the reader's invariant that closing it writes the right
  place, whatever stands in between (`foldlM_read_text`).
-/

set_option autoImplicit false

namespace EsoHost.Brainfuck

/-! ### Trees and their texts -/

/-- A command that is no bracket. -/
inductive Atom where
  | right | left
  | increment | decrement
  | output | input
  deriving DecidableEq, Repr

namespace Atom

/-- The written form of a command. -/
def char : Atom → Char
  | right => '>'
  | left => '<'
  | increment => '+'
  | decrement => '-'
  | output => '.'
  | input => ','

/-- The command of a machine. -/
def command : Atom → Command
  | right => .right
  | left => .left
  | increment => .increment
  | decrement => .decrement
  | output => .output
  | input => .input

/-- Different commands are written differently. -/
theorem char_inj {a b : Atom} (h : a.char = b.char) : a = b := by
  cases a <;> cases b <;> simp_all [char]

/-- What is not a bracket is not written as an opening one. -/
theorem char_ne_open (a : Atom) : a.char ≠ '[' := by
  cases a <;> decide

/-- Nor as a closing one. -/
theorem char_ne_close (a : Atom) : a.char ≠ ']' := by
  cases a <;> decide

end Atom

/-- A structured program: what comes first, and the rest. -/
inductive Tree where
  | done
  | atom (a : Atom) (rest : Tree)
  | loop (body rest : Tree)
  deriving DecidableEq, Repr

/-- The eight characters that are not comments. -/
def isCommand (c : Char) : Bool := c ∈ ['>', '<', '+', '-', '.', ',', '[', ']']

namespace Tree

/-- The written form of a tree. -/
def text : Tree → List Char
  | done => []
  | atom a rest => a.char :: rest.text
  | loop body rest => '[' :: (body.text ++ ']' :: rest.text)

/-- The number of commands, brackets included. -/
def size : Tree → Nat
  | done => 0
  | atom _ rest => rest.size + 1
  | loop body rest => body.size + rest.size + 2

/-- The source is the text of the tree with comments. -/
def Spells (tree : Tree) (source : String) : Prop :=
  source.toList.filter isCommand = tree.text

/-- The commands of a tree, the first of them at `place`. The brackets
of a loop know each other's places. -/
def assemble (place : Nat) : Tree → List Command
  | done => []
  | atom a rest => a.command :: rest.assemble (place + 1)
  | loop body rest =>
    .jumpForward (place + body.size + 1) ::
      (body.assemble (place + 1) ++
        .jumpBack place :: rest.assemble (place + body.size + 2))

/-- A tree becomes as many commands as its size says, wherever they
stand. -/
@[simp]
theorem length_assemble (tree : Tree) (place : Nat) :
    (tree.assemble place).length = tree.size := by
  induction tree generalizing place with
  | done => rfl
  | atom a rest ih => simp [assemble, size, ih]
  | loop body rest ihBody ihRest =>
    simp only [assemble, size, List.length_cons, List.length_append, ihBody, ihRest]
    omega

/-! ### One tree for a source -/

/-- A text that is followed by nothing or by a closing bracket has been
written by one tree only. -/
theorem text_append_inj {tree tree' : Tree} {after after' : List Char}
    (hafter : ∀ c ∈ after.head?, c = ']') (hafter' : ∀ c ∈ after'.head?, c = ']')
    (h : tree.text ++ after = tree'.text ++ after') : tree = tree' ∧ after = after' := by
  induction tree generalizing tree' after after' with
  | done =>
    cases tree' with
    | done => exact ⟨rfl, h⟩
    | atom a rest =>
      -- Only a closing bracket may follow the first tree, and the second one
      -- writes another character there.
      have h : after = a.char :: (rest.text ++ after') := h
      subst h
      exact absurd (hafter _ rfl) a.char_ne_close
    | loop body rest =>
      have h : after = '[' :: ((body.text ++ ']' :: rest.text) ++ after') := h
      subst h
      exact absurd (hafter _ rfl) (by decide)
  | atom a rest ih =>
    cases tree' with
    | done =>
      have h : a.char :: (rest.text ++ after) = after' := h
      subst h
      exact absurd (hafter' _ rfl) a.char_ne_close
    | atom b rest' =>
      obtain ⟨hchar, htail⟩ := List.cons.inj h
      obtain ⟨rfl, rfl⟩ := ih hafter hafter' htail
      exact ⟨by rw [Atom.char_inj hchar], rfl⟩
    | loop body rest' => exact absurd (List.cons.inj h).1 a.char_ne_open
  | loop body rest ihBody ihRest =>
    cases tree' with
    | done =>
      have h : '[' :: ((body.text ++ ']' :: rest.text) ++ after) = after' := h
      subst h
      exact absurd (hafter' _ rfl) (by decide)
    | atom b rest' => exact absurd (List.cons.inj h).1.symm b.char_ne_open
    | loop body' rest' =>
      -- The bodies end at the first closing bracket that is not theirs.
      have htail : body.text ++ ']' :: (rest.text ++ after)
          = body'.text ++ ']' :: (rest'.text ++ after') := by
        simpa [text] using h
      obtain ⟨rfl, hrest⟩ := ihBody (by simp) (by simp) htail
      obtain ⟨rfl, rfl⟩ := ihRest hafter hafter' (List.cons.inj hrest).2
      exact ⟨rfl, rfl⟩

/-- A source spells one tree at most. -/
theorem Spells.unique {tree tree' : Tree} {source : String} (h : tree.Spells source)
    (h' : tree'.Spells source) : tree' = tree := by
  have htext : tree'.text ++ [] = tree.text ++ [] := by rw [← h, ← h']
  exact (text_append_inj (by simp) (by simp) htext).1

end Tree

/-! ### Balanced brackets -/

/-- Every closing bracket closes one that was opened before it, and
every bracket is closed. -/
def Balanced (source : List Char) : Prop :=
  (∀ n ≤ source.length, (source.take n).count ']' ≤ (source.take n).count '[') ∧
    source.count ']' = source.count '['

instance (source : List Char) : Decidable (Balanced source) :=
  inferInstanceAs (Decidable (_ ∧ _))

/-- The text of a tree for each bracket that is still open, and one for
the end: what can follow when `depth` brackets are open. -/
def Closes : (depth : Nat) → List Char → Prop
  | 0, cs => ∃ tree : Tree, cs = tree.text
  | depth + 1, cs => ∃ (tree : Tree) (rest : List Char),
      cs = tree.text ++ ']' :: rest ∧ Closes depth rest

/-- Another command before the text leaves as many brackets to close. -/
theorem Closes.atom {depth : Nat} {cs : List Char} (a : Atom) (h : Closes depth cs) :
    Closes depth (a.char :: cs) := by
  cases depth with
  | zero =>
    obtain ⟨tree, rfl⟩ := h
    exact ⟨.atom a tree, rfl⟩
  | succ depth =>
    obtain ⟨tree, rest, rfl, hrest⟩ := h
    exact ⟨.atom a tree, rest, rfl, hrest⟩

/-- An opening bracket takes the first tree of the text as its body. -/
theorem Closes.open {depth : Nat} {cs : List Char} (h : Closes (depth + 1) cs) :
    Closes depth ('[' :: cs) := by
  obtain ⟨body, after, rfl, hafter⟩ := h
  cases depth with
  | zero =>
    obtain ⟨tree, rfl⟩ := hafter
    exact ⟨.loop body tree, rfl⟩
  | succ depth =>
    obtain ⟨tree, rest, rfl, hrest⟩ := hafter
    exact ⟨.loop body tree, rest, by simp [Tree.text], hrest⟩

/-- A closing bracket ends an empty tree. -/
theorem Closes.close {depth : Nat} {cs : List Char} (h : Closes depth cs) :
    Closes (depth + 1) (']' :: cs) :=
  ⟨.done, cs, rfl, h⟩

/-- What is a command and not a bracket is one of the six others. -/
theorem exists_atom_of_isCommand {c : Char} (h : isCommand c) (hopen : c ≠ '[')
    (hclose : c ≠ ']') : ∃ a : Atom, a.char = c := by
  simp only [isCommand, List.mem_cons, List.not_mem_nil, or_false, decide_eq_true_eq] at h
  rcases h with rfl | rfl | rfl | rfl | rfl | rfl | rfl | rfl
  · exact ⟨.right, rfl⟩
  · exact ⟨.left, rfl⟩
  · exact ⟨.increment, rfl⟩
  · exact ⟨.decrement, rfl⟩
  · exact ⟨.output, rfl⟩
  · exact ⟨.input, rfl⟩
  · exact absurd rfl hopen
  · exact absurd rfl hclose

/-- If a source closes what it opens and `depth` brackets more, it can
follow where so many are open. -/
theorem closes_of_count {source : List Char} {depth : Nat}
    (hdepth : ∀ n ≤ source.length,
      (source.take n).count ']' ≤ (source.take n).count '[' + depth)
    (htotal : source.count ']' = source.count '[' + depth) :
    Closes depth (source.filter isCommand) := by
  induction source generalizing depth with
  | nil =>
    obtain rfl : depth = 0 := by simpa using htotal.symm
    exact ⟨.done, rfl⟩
  | cons c source ih =>
    -- The bound on the longer prefixes is a bound on those of the rest,
    -- with the first character counted in each of them.
    have hlater : ∀ n ≤ source.length,
        (c :: source.take n).count ']' ≤ (c :: source.take n).count '[' + depth := by
      intro n hn
      exact hdepth (n + 1) (Nat.succ_le_succ hn)
    by_cases hopen : c = '['
    · subst hopen
      refine Closes.open (ih ?_ ?_)
      · intro n hn
        have := hlater n hn
        simp only [List.count_cons] at this
        simpa [Nat.add_assoc, Nat.add_comm 1] using this
      · simp only [List.count_cons] at htotal
        simpa [Nat.add_assoc, Nat.add_comm 1] using htotal
    · by_cases hclose : c = ']'
      · subst hclose
        cases depth with
        | zero => exact absurd (hlater 0 (Nat.zero_le _)) (by simp)
        | succ depth =>
          refine Closes.close (ih ?_ ?_)
          · intro n hn
            have := hlater n hn
            simp at this
            omega
          · simp at htotal
            omega
      · have hrest : Closes depth (source.filter isCommand) := by
          refine ih ?_ ?_
          · intro n hn
            simpa [List.count_cons, hopen, hclose] using hlater n hn
          · simpa [List.count_cons, hopen, hclose] using htotal
        by_cases hcommand : isCommand c
        · obtain ⟨a, rfl⟩ := exists_atom_of_isCommand hcommand hopen hclose
          rw [List.filter_cons_of_pos hcommand]
          exact hrest.atom a
        · rw [List.filter_cons_of_neg hcommand]
          exact hrest

/-- A source whose brackets are balanced spells a tree. -/
theorem exists_spells_of_balanced {source : String} (h : Balanced source.toList) :
    ∃ tree : Tree, tree.Spells source :=
  have hcloses : Closes 0 (source.toList.filter isCommand) := closes_of_count h.1 h.2
  hcloses

/-! ### Reading a source -/

/-- A character that is no command is passed over. -/
theorem Draft.read_comment (p : Draft) {c : Char} (h : ¬ isCommand c) : p.read c = .ok p := by
  simp only [isCommand, List.mem_cons, List.not_mem_nil, or_false, decide_eq_true_eq,
    not_or] at h
  unfold Draft.read
  split <;> simp_all

/-- Comments do not matter. -/
theorem foldlM_read_filter (source : List Char) (p : Draft) :
    (source.filter isCommand).foldlM Draft.read p = source.foldlM Draft.read p := by
  induction source generalizing p with
  | nil => rfl
  | cons c source ih =>
    by_cases hcommand : isCommand c
    · rw [List.filter_cons_of_pos hcommand, List.foldlM_cons, List.foldlM_cons]
      exact bind_congr fun p => ih p
    · rw [List.filter_cons_of_neg hcommand, List.foldlM_cons, Draft.read_comment p hcommand, ih]
      rfl

/-- A command that is not a bracket is appended. -/
theorem Draft.read_atom (p : Draft) (a : Atom) : p.read a.char = .ok (p.push a.command) := by
  cases a <;> rfl

/-- A closing bracket writes its place into the place where its partner
stands, wherever that is. -/
theorem set_assemble_open (commands : Program) (body : List Command) (c c' : Command) :
    ((commands.push c) ++ body.toArray).setIfInBounds commands.size c'
      = (commands.push c') ++ body.toArray := by
  apply Array.ext'
  simp

/-- Reading the text of a tree appends its commands. What was read
before stays as it is, the open brackets too. -/
theorem foldlM_read_text (tree : Tree) (after : List Char) (commands : Program)
    (opened : List Nat) :
    (tree.text ++ after).foldlM Draft.read ⟨commands, opened⟩
      = after.foldlM Draft.read
          ⟨commands ++ (tree.assemble commands.size).toArray, opened⟩ := by
  induction tree generalizing after commands opened with
  | done => simp [Tree.text, Tree.assemble]
  | atom a rest ih =>
    rw [Tree.text, List.cons_append, List.foldlM_cons, Draft.read_atom]
    show (rest.text ++ after).foldlM Draft.read ⟨commands.push a.command, opened⟩ = _
    rw [ih]
    simp [Tree.assemble]
  | loop body rest ihBody ihRest =>
    rw [show (Tree.loop body rest).text ++ after
      = '[' :: (body.text ++ (']' :: (rest.text ++ after))) by simp [Tree.text]]
    rw [List.foldlM_cons]
    show (body.text ++ (']' :: (rest.text ++ after))).foldlM Draft.read
      ⟨commands.push (.jumpForward 0), commands.size :: opened⟩ = _
    rw [ihBody, List.foldlM_cons]
    -- The place of the opening bracket is on top again, whatever the body opened.
    show (rest.text ++ after).foldlM Draft.read
      ⟨Array.push (Array.setIfInBounds _ commands.size _) _, opened⟩ = _
    rw [set_assemble_open, ihRest]
    congr 2
    apply Array.ext'
    simp [Tree.assemble, Nat.add_assoc]

/-- Reading a source gives the commands of the tree that it spells. -/
theorem parse_of_spells {tree : Tree} {source : String} (h : tree.Spells source) :
    parse source = .ok (tree.assemble 0).toArray := by
  have hread : source.toList.foldlM Draft.read ⟨#[], []⟩
      = .ok ⟨(tree.assemble 0).toArray, []⟩ := by
    rw [← foldlM_read_filter, show source.toList.filter isCommand = tree.text ++ [] by
      rw [h, List.append_nil], foldlM_read_text]
    simp
    rfl
  rw [parse, hread]
  rfl

end EsoHost.Brainfuck
