import EsoHost.Proofs.Brainfuck.Tree

/-!
# `EsoHost.Proofs.Brainfuck.Brackets`: which brackets are partners

Reading writes each bracket as a jump to its partner. `Partners` says
which brackets those are without a reader: what stands between them is
balanced. `parse_pairs_brackets` says that reading succeeds exactly on
balanced brackets, that the jumps then join the partners, and which
bracket an error names otherwise.

A bracket is read as a jump to place 0 when it opens, and written again
when it is closed. So the invariant speaks of every prefix of the text
(`Draft.Reads`): which brackets have a partner so far, and which do not.

* `Opens` says which brackets are open: the text is cut at them into
  balanced pieces. A `]` that follows finds its partner in the last one
  (`Opens.partners_close_iff`).
* `Draft.Reads.read_atom`, `Draft.Reads.read_open` and
  `Draft.Reads.read_close` are the step lemmas, and `outcome_foldlM` is
  what they come to for a whole text.
-/

set_option autoImplicit false

namespace EsoHost.Brainfuck

/-! ### Partners -/

/-- The written form of a command. -/
def Command.char : Command → Char
  | right => '>'
  | left => '<'
  | increment => '+'
  | decrement => '-'
  | output => '.'
  | input => ','
  | jumpForward _ => '['
  | jumpBack _ => ']'

/-- The brackets at places `i` and `j` match: what stands between them is
balanced. -/
def Partners (cs : List Char) (i j : Nat) : Prop :=
  i < j ∧ cs[i]? = some '[' ∧ cs[j]? = some ']' ∧ Balanced ((cs.take j).drop (i + 1))

/-- The bracket at place `i` is open at place `k`: it has not been closed
before. -/
def OpenAt (cs : List Char) (k i : Nat) : Prop :=
  i < k ∧ cs[i]? = some '[' ∧ ∀ j < k, ¬ Partners cs i j

/-- The `]` at place `k` has no open `[` before it. -/
def Unopened (cs : List Char) (k : Nat) : Prop :=
  cs[k]? = some ']' ∧ ∀ i, ¬ OpenAt cs k i

/-- The `[` at place `i` is never closed. -/
def Unclosed (cs : List Char) (i : Nat) : Prop :=
  cs[i]? = some '[' ∧ ∀ j, ¬ Partners cs i j

/-- The commands are those of the text in order, and the jumps among them
join partners. -/
structure Program.Pairs (cs : List Char) (p : Program) : Prop where
  chars_eq : p.toList.map Command.char = cs
  forward_iff : ∀ i j, p[i]? = some (.jumpForward j) ↔ Partners cs i j
  back_iff : ∀ i j, p[j]? = some (.jumpBack i) ↔ Partners cs i j

/-- The bracket that an error names. -/
inductive Fault (cs : List Char) (k : Nat) : Prop where
  /-- The first `]` that closes nothing. -/
  | unopened (here : Unopened cs k) (first : ∀ j < k, ¬ Unopened cs j)
  /-- If there is none, the last `[` that is never closed. -/
  | unclosed (closed : ∀ j, ¬ Unopened cs j) (here : Unclosed cs k)
      (last : ∀ j > k, ¬ Unclosed cs j)

/-- Partners are places of the text. -/
theorem Partners.lt_length {cs : List Char} {i j : Nat} (h : Partners cs i j) : j < cs.length :=
  (List.getElem?_eq_some_iff.mp h.2.2.1).1

/-- What comes later does not matter to partners. -/
theorem partners_append_iff {cs more : List Char} {i j : Nat} (h : j < cs.length) :
    Partners (cs ++ more) i j ↔ Partners cs i j := by
  unfold Partners
  rw [List.take_append_of_le_length (Nat.le_of_lt h), List.getElem?_append_left h]
  constructor
  · rintro ⟨hlt, hi, hj, hbetween⟩
    rw [List.getElem?_append_left (Nat.lt_trans hlt h)] at hi
    exact ⟨hlt, hi, hj, hbetween⟩
  · rintro ⟨hlt, hi, hj, hbetween⟩
    rw [List.getElem?_append_left (Nat.lt_trans hlt h)]
    exact ⟨hlt, hi, hj, hbetween⟩

/-- A character that closes nothing makes no partners. -/
theorem partners_concat_iff {cs : List Char} {c : Char} {i j : Nat} (hc : c ≠ ']') :
    Partners (cs ++ [c]) i j ↔ Partners cs i j := by
  constructor
  · intro hpartners
    have hlt := hpartners.lt_length
    rw [List.length_append, List.length_singleton] at hlt
    by_cases hj : j = cs.length
    · have hlast := hpartners.2.2.1
      rw [hj, List.getElem?_concat_length, Option.some.injEq] at hlast
      exact absurd hlast hc
    · exact (partners_append_iff (by omega)).mp hpartners
  · intro hpartners
    exact (partners_append_iff hpartners.lt_length).mpr hpartners

/-- The text before a closing bracket, cut at its partner. -/
theorem partners_close_iff {cs : List Char} {i : Nat} :
    Partners (cs ++ [']']) i cs.length ↔
      ∃ front body, cs = front ++ '[' :: body ∧ front.length = i ∧ Balanced body := by
  unfold Partners
  rw [List.take_left]
  constructor
  · rintro ⟨hlt, hi, -, hbetween⟩
    rw [List.getElem?_append_left hlt] at hi
    refine ⟨cs.take i, cs.drop (i + 1), ?_, List.length_take_of_le (Nat.le_of_lt hlt), hbetween⟩
    rw [← List.getElem?_eq_some_iff.mp hi |>.2, List.getElem_cons_drop, List.take_append_drop]
  · rintro ⟨front, body, rfl, rfl, hbody⟩
    refine ⟨by simp, by simp, by simp, ?_⟩
    have hdrop : (front ++ '[' :: body).drop (front.length + 1) = body := by simp
    rwa [hdrop]

/-! ### Balanced texts -/

section Balanced

variable {cs body front back : List Char}

/-- In every prefix at most as many brackets are closed as are opened,
also if it is cut past the end. -/
theorem Balanced.take (h : Balanced cs) (n : Nat) :
    (cs.take n).count ']' ≤ (cs.take n).count '[' := by
  by_cases hn : n ≤ cs.length
  · exact h.1 n hn
  · rw [List.take_of_length_le (by omega), h.2]

/-- The empty text is balanced. -/
theorem balanced_nil : Balanced [] := by decide

/-- So is a command that is not a bracket. -/
theorem balanced_atom (a : Atom) : Balanced [a.char] := by
  cases a <;> decide

/-- So are two balanced texts, one after the other. -/
theorem Balanced.append (h : Balanced cs) (hbody : Balanced body) : Balanced (cs ++ body) := by
  refine ⟨fun n _ => ?_, ?_⟩
  · rw [List.take_append, List.count_append, List.count_append]
    exact Nat.add_le_add (h.take n) (hbody.take _)
  · rw [List.count_append, List.count_append, h.2, hbody.2]

/-- A pair of brackets around a balanced text. -/
theorem Balanced.wrap (h : Balanced body) : Balanced ('[' :: (body ++ [']'])) := by
  refine ⟨fun n _ => ?_, ?_⟩
  · cases n with
    | zero => simp
    | succ n =>
      have hbody := h.take n
      have hlast : ([']'].take (n - body.length)).count ']' ≤ 1 :=
        List.count_le_length.trans (List.length_take_le' _ _)
      simp [List.take_append] at hbody hlast ⊢
      omega
  · have htotal := h.2
    simp
    omega

/-- A `]` after a balanced text closes nothing. -/
theorem not_balanced_close (h : Balanced front) : ¬ Balanced (front ++ ']' :: back) := by
  intro hall
  rw [← List.singleton_append, ← List.append_assoc] at hall
  have hprefix := hall.take (front ++ [']']).length
  have htotal := h.2
  rw [List.take_left] at hprefix
  simp at hprefix
  omega

/-- A `[` before a balanced text is not closed in it. -/
theorem not_balanced_open (h : Balanced body) : ¬ Balanced (front ++ '[' :: body) := by
  intro hall
  have hprefix := hall.take front.length
  have htotal := hall.2
  have hbody := h.2
  simp at hprefix htotal
  omega

/-- There is one way to cut a text at a `[` with a balanced text after
it. -/
theorem length_eq_of_balanced {front' body' : List Char}
    (h : front ++ '[' :: body = front' ++ '[' :: body') (hbody : Balanced body)
    (hbody' : Balanced body') : front.length = front'.length := by
  -- One of the two cuts comes first. Were they different, its body would
  -- hold the other's open bracket.
  rcases List.append_eq_append_iff.mp h with ⟨between, rfl, hcut⟩ | ⟨between, rfl, hcut⟩
  · cases between with
    | nil => simp
    | cons c between =>
      obtain ⟨-, rfl⟩ := List.cons.inj hcut
      exact absurd hbody (not_balanced_open hbody')
  · cases between with
    | nil => simp
    | cons c between =>
      obtain ⟨-, rfl⟩ := List.cons.inj hcut
      exact absurd hbody' (not_balanced_open hbody)

end Balanced

/-! ### Open brackets -/

/-- The brackets at these places are open at the end of the text, the last
one first: what stands between them is balanced. -/
inductive Opens : List Char → List Nat → Prop where
  | none {cs : List Char} (balanced : Balanced cs) : Opens cs []
  | more {front body : List Char} {opened : List Nat} (before : Opens front opened)
      (balanced : Balanced body) : Opens (front ++ '[' :: body) (front.length :: opened)

section Opens

variable {cs body : List Char} {opened : List Nat} {i : Nat}

/-- A balanced text opens nothing and closes nothing. -/
theorem Opens.append (h : Opens cs opened) (hbody : Balanced body) :
    Opens (cs ++ body) opened := by
  cases h with
  | none balanced => exact .none (balanced.append hbody)
  | more before balanced =>
    rw [List.append_assoc, List.cons_append]
    exact .more before (balanced.append hbody)

/-- An opening bracket is the last one that is open. -/
theorem Opens.open (h : Opens cs opened) : Opens (cs ++ ['[']) (cs.length :: opened) :=
  .more h balanced_nil

/-- A closing bracket closes the last one that is open. -/
theorem Opens.close (h : Opens cs (i :: opened)) : Opens (cs ++ [']']) opened := by
  cases h with
  | more before balanced =>
    rw [List.append_assoc, List.cons_append]
    exact before.append balanced.wrap

/-- What is open is an opening bracket. -/
theorem Opens.getElem? (h : Opens cs opened) (hi : i ∈ opened) : cs[i]? = some '[' := by
  induction h with
  | none balanced => exact absurd hi List.not_mem_nil
  | @more front body opened before balanced ih =>
    rcases List.mem_cons.mp hi with rfl | hmem
    · simp
    · have hbefore := ih hmem
      rw [List.getElem?_append_left (List.getElem?_eq_some_iff.mp hbefore).1, hbefore]

/-- It is a place of the text. -/
theorem Opens.lt_length (h : Opens cs opened) (hi : i ∈ opened) : i < cs.length :=
  (List.getElem?_eq_some_iff.mp (h.getElem? hi)).1

/-- The last bracket that is open comes first. -/
theorem Opens.lt_head {k : Nat} (h : Opens cs (k :: opened)) (hi : i ∈ opened) : i < k := by
  cases h with
  | more before _ => exact before.lt_length hi

/-- The partner of a closing bracket is the last one that is open. -/
theorem Opens.partners_close_iff (h : Opens cs opened) :
    Partners (cs ++ [']']) i cs.length ↔ opened.head? = some i := by
  rw [Brainfuck.partners_close_iff]
  cases h with
  | none balanced =>
    constructor
    · rintro ⟨front, body, rfl, -, hbody⟩
      exact absurd balanced (not_balanced_open hbody)
    · intro h
      cases h
  | @more front body opened before balanced =>
    constructor
    · rintro ⟨front', body', hcut, rfl, hbody'⟩
      exact congrArg some (length_eq_of_balanced hcut balanced hbody')
    · intro h
      exact ⟨front, body, rfl, Option.some.inj h, balanced⟩

/-- If nothing is open, the text is balanced. -/
theorem Opens.balanced (h : Opens cs []) : Balanced cs := by
  cases h with
  | none balanced => exact balanced

/-- If something is open, it is not. -/
theorem Opens.not_balanced {k : Nat} (h : Opens cs (k :: opened)) : ¬ Balanced cs := by
  cases h with
  | more before balanced => exact not_balanced_open balanced

end Opens

/-! ### Reading -/

/-- What has been read is the text `cs`. A jump leads to its partner, or
to place 0 if it is still open. -/
structure Draft.Reads (cs : List Char) (p : Draft) : Prop where
  chars_eq : p.commands.toList.map Command.char = cs
  opens : Opens cs p.opened
  forward_iff : ∀ i j, p.commands[i]? = some (.jumpForward j) ↔
    Partners cs i j ∨ i ∈ p.opened ∧ j = 0
  back_iff : ∀ i j, p.commands[j]? = some (.jumpBack i) ↔ Partners cs i j

/-- The empty text has no partners. -/
theorem not_partners_nil (i j : Nat) : ¬ Partners [] i j :=
  fun h => Nat.not_lt_zero _ h.lt_length

/-- Before the first character nothing has been read. -/
theorem reads_nil : Draft.Reads [] ⟨#[], []⟩ :=
  ⟨rfl, .none balanced_nil, by simp [not_partners_nil], by simp [not_partners_nil]⟩

/-- A command stands in a longer program if it stood there before, or is
the last one. -/
theorem getElem?_push_eq_some_iff {commands : Program} {c d : Command} {i : Nat} :
    (commands.push c)[i]? = some d ↔ commands[i]? = some d ∨ i = commands.size ∧ c = d := by
  rw [Array.getElem?_push]
  split
  · rename_i hi
    simp [hi]
  · rename_i hi
    simp [hi]

/-- A command is written as it was read. -/
theorem Atom.char_command (a : Atom) : a.command.char = a.char := by
  cases a <;> rfl

namespace Draft.Reads

variable {cs : List Char} {p : Draft} {i j : Nat}

/-- There is one command for each character. -/
theorem size_eq (h : p.Reads cs) : p.commands.size = cs.length := by
  rw [← h.chars_eq, List.length_map, Array.length_toList]

/-- The character at a place is the written form of the command there.
-/
theorem getElem?_char (h : p.Reads cs) (i : Nat) :
    cs[i]? = p.commands[i]?.map Command.char := by
  rw [← h.chars_eq, List.getElem?_map, Array.getElem?_toList]

/-- An open bracket has no partner. -/
theorem not_partners (h : p.Reads cs) (hi : i ∈ p.opened) : ¬ Partners cs i j := by
  intro hpartners
  have hplace := (h.forward_iff i j).mpr (Or.inl hpartners)
  have hzero := (h.forward_iff i 0).mpr (Or.inr ⟨hi, rfl⟩)
  have hj : j = 0 := by simpa using hplace.symm.trans hzero
  have hlt := hpartners.1
  omega

/-- A bracket has one partner. -/
theorem eq_of_partners (h : p.Reads cs) {j' : Nat} (hj : Partners cs i j)
    (hj' : Partners cs i j') : j = j' := by
  have hplace := (h.forward_iff i j).mpr (Or.inl hj)
  have hplace' := (h.forward_iff i j').mpr (Or.inl hj')
  simpa using hplace.symm.trans hplace'

/-- A `[` is closed or open. -/
theorem partners_of_open (h : p.Reads cs) (hi : cs[i]? = some '[') :
    (∃ j, Partners cs i j) ∨ i ∈ p.opened := by
  rw [h.getElem?_char, Option.map_eq_some_iff] at hi
  obtain ⟨c, hc, hchar⟩ := hi
  cases c with
  | jumpForward j =>
    rcases (h.forward_iff i j).mp hc with hpartners | ⟨hmem, -⟩
    · exact Or.inl ⟨j, hpartners⟩
    · exact Or.inr hmem
  | _ => exact absurd hchar (by simp [Command.char])

/-- Every `]` that was read closes something. -/
theorem partners_of_close (h : p.Reads cs) (hj : cs[j]? = some ']') : ∃ i, Partners cs i j := by
  rw [h.getElem?_char, Option.map_eq_some_iff] at hj
  obtain ⟨c, hc, hchar⟩ := hj
  cases c with
  | jumpBack i => exact ⟨i, (h.back_iff i j).mp hc⟩
  | _ => exact absurd hchar (by simp [Command.char])

/-- A command that is not a bracket changes nothing about partners. -/
theorem read_atom (h : p.Reads cs) (a : Atom) : (p.push a.command).Reads (cs ++ [a.char]) := by
  refine ⟨?_, h.opens.append (balanced_atom a), fun i j => ?_, fun i j => ?_⟩
  · simp [push, h.chars_eq, a.char_command]
  · have hatom : a.command ≠ .jumpForward j := by cases a <;> simp [Atom.command]
    simp only [push, getElem?_push_eq_some_iff, partners_concat_iff a.char_ne_close, h.forward_iff,
      hatom, and_false, or_false]
  · have hatom : a.command ≠ .jumpBack i := by cases a <;> simp [Atom.command]
    simp only [push, getElem?_push_eq_some_iff, partners_concat_iff a.char_ne_close, h.back_iff,
      hatom, and_false, or_false]

/-- A bracket that opens has no partner yet. -/
theorem read_open (h : p.Reads cs) :
    Reads (cs ++ ['[']) ⟨p.commands.push (.jumpForward 0), p.commands.size :: p.opened⟩ := by
  refine ⟨by simp [h.chars_eq, Command.char], ?_, fun i j => ?_, fun i j => ?_⟩
  · rw [h.size_eq]
    exact h.opens.open
  · simp only [getElem?_push_eq_some_iff, partners_concat_iff (c := '[') (by decide), h.forward_iff,
      Command.jumpForward.injEq, List.mem_cons]
    tauto
  · simp [getElem?_push_eq_some_iff, partners_concat_iff (c := '[') (by decide), h.back_iff]

/-- The partners when a closing bracket has come. -/
theorem partners_close_iff {start : Nat} {opened : List Nat} (h : p.Reads cs)
    (hopened : p.opened = start :: opened) :
    Partners (cs ++ [']']) i j ↔ Partners cs i j ∨ i = start ∧ j = cs.length := by
  have hlast : Partners (cs ++ [']']) i cs.length ↔ i = start := by
    rw [h.opens.partners_close_iff, hopened, List.head?_cons, Option.some.injEq, eq_comm]
  constructor
  · intro hpartners
    have hlt := hpartners.lt_length
    rw [List.length_append, List.length_singleton] at hlt
    by_cases hj : j = cs.length
    · rw [hj] at hpartners
      exact Or.inr ⟨hlast.mp hpartners, hj⟩
    · exact Or.inl ((partners_append_iff (by omega)).mp hpartners)
  · rintro (hpartners | ⟨rfl, rfl⟩)
    · exact (partners_append_iff hpartners.lt_length).mpr hpartners
    · exact hlast.mpr rfl

/-- A closing bracket writes its place where the last open one stands. -/
theorem read_close {commands : Program} {start : Nat} {opened : List Nat}
    (h : Reads cs ⟨commands, start :: opened⟩) :
    Reads (cs ++ [']'])
      ⟨(commands.setIfInBounds start (.jumpForward commands.size)).push (.jumpBack start),
        opened⟩ := by
  have hsize : commands.size = cs.length := h.size_eq
  have hstart : cs[start]? = some '[' := h.opens.getElem? List.mem_cons_self
  have hlt : start < commands.size := hsize ▸ h.opens.lt_length List.mem_cons_self
  have hforward := h.forward_iff
  have hback := h.back_iff
  simp only at hforward hback
  refine ⟨?_, h.opens.close, fun i j => ?_, fun i j => ?_⟩
  · -- The bracket was written as a jump before, so that its character stays.
    obtain ⟨hplace, hchar⟩ := List.getElem?_eq_some_iff.mp hstart
    have hsame : cs.set start '[' = cs := by rw [← hchar, List.set_getElem_self]
    have hchars : commands.toList.map Command.char = cs := h.chars_eq
    simp [List.map_set, hchars, Command.char, hsame]
  · rw [getElem?_push_eq_some_iff, Array.getElem?_setIfInBounds, h.partners_close_iff rfl, ← hsize]
    -- The place that is written again is the partner of the new bracket. It
    -- had none before, so that the jump to place 0 goes and one to the new
    -- bracket comes.
    by_cases hi : start = i
    · subst hi
      have hnew : ¬ Partners cs start j := h.not_partners List.mem_cons_self
      have hclosed : start ∉ opened := fun hmem => Nat.lt_irrefl _ (h.opens.lt_head hmem)
      rw [if_pos rfl, if_pos hlt]
      simp [hnew, hclosed, eq_comm]
    · rw [if_neg hi]
      simp [Ne.symm hi, hforward]
  · rw [getElem?_push_eq_some_iff, Array.getElem?_setIfInBounds, h.partners_close_iff rfl, ← hsize]
    -- The place that is written again holds an opening bracket, no jump
    -- back.
    by_cases hj : start = j
    · subst hj
      have hopen : ¬ Partners cs i start := by
        intro hpartners
        have hchar := hstart.symm.trans hpartners.2.2.1
        simp at hchar
      rw [if_pos rfl, if_pos hlt]
      simp [hopen, Nat.ne_of_lt hlt]
    · rw [if_neg hj, hback, Array.size_setIfInBounds, Command.jumpBack.injEq, and_comm,
        eq_comm (a := i)]

/-- Whatever comes later, every `]` that was read had an open `[` before
it. -/
theorem not_unopened (h : p.Reads cs) (more : List Char) (hj : j < cs.length) :
    ¬ Unopened (cs ++ more) j := by
  rintro ⟨hclose, hnone⟩
  rw [List.getElem?_append_left hj] at hclose
  obtain ⟨i, hpartners⟩ := h.partners_of_close hclose
  have hlt := hpartners.1
  -- It was its partner, which had not been closed before.
  apply hnone i
  refine ⟨hlt, ?_, fun j' hj' hpartners' => ?_⟩
  · rw [List.getElem?_append_left (Nat.lt_trans hlt hj)]
    exact hpartners.2.1
  · rw [partners_append_iff (Nat.lt_trans hj' hj)] at hpartners'
    exact Nat.ne_of_lt hj' (h.eq_of_partners hpartners' hpartners)

/-- A `]` at which nothing is open. -/
theorem fault_close (h : p.Reads cs) (hclosed : p.opened = []) (back : List Char) :
    Fault (cs ++ ']' :: back) cs.length := by
  refine .unopened ⟨by simp, ?_⟩ fun j hj => h.not_unopened _ hj
  rintro i ⟨hlt, hopen, hnever⟩
  rw [List.getElem?_append_left hlt] at hopen
  rcases h.partners_of_open hopen with ⟨j, hpartners⟩ | hmem
  · exact hnever j hpartners.lt_length ((partners_append_iff hpartners.lt_length).mpr hpartners)
  · rw [hclosed] at hmem
    cases hmem

/-- The text has ended, and a `[` is open. -/
theorem fault_open {k : Nat} {opened : List Nat} (h : p.Reads cs)
    (hopened : p.opened = k :: opened) : Fault cs k := by
  have hopens := h.opens
  rw [hopened] at hopens
  have hmem : k ∈ p.opened := hopened ▸ List.mem_cons_self
  refine .unclosed (fun j hunopened => ?_)
    ⟨h.opens.getElem? hmem, fun j => h.not_partners hmem⟩ fun j hj hunclosed => ?_
  · have hlt := (List.getElem?_eq_some_iff.mp hunopened.1).1
    exact h.not_unopened [] hlt (by rwa [List.append_nil])
  · -- A later `[` that is never closed would be open, and nearer to the end.
    rcases h.partners_of_open hunclosed.1 with ⟨i, hpartners⟩ | hlater
    · exact hunclosed.2 i hpartners
    · rw [hopened] at hlater
      rcases List.mem_cons.mp hlater with rfl | hlater
      · exact Nat.lt_irrefl _ hj
      · exact Nat.lt_asymm hj (hopens.lt_head hlater)

/-- If no bracket is open at the end, all jumps lead to partners. -/
theorem pairs (h : p.Reads cs) (hclosed : p.opened = []) : Program.Pairs cs p.commands :=
  ⟨h.chars_eq, fun i j => by simp [h.forward_iff, hclosed], h.back_iff⟩

end Draft.Reads

/-! ### Whole texts -/

/-- What reading a text comes to. -/
inductive Outcome (cs : List Char) : Except UnmatchedBracket Draft → Prop where
  | ok (p : Draft) (reads : p.Reads cs) : Outcome cs (.ok p)
  /-- A `]` has come when nothing was open. -/
  | error {front back : List Char} {p : Draft} (reads : p.Reads front) (closed : p.opened = [])
      (cut : cs = front ++ ']' :: back) : Outcome cs (.error ⟨front.length⟩)

/-- Any number of characters more. -/
theorem outcome_foldlM {front cs : List Char} {p : Draft} (h : p.Reads front)
    (hcs : ∀ c ∈ cs, isCommand c) : Outcome (front ++ cs) (cs.foldlM Draft.read p) := by
  induction cs generalizing front p with
  | nil =>
    rw [List.append_nil]
    exact .ok p h
  | cons c cs ih =>
    have hrest : ∀ c ∈ cs, isCommand c := fun c hc => hcs c (List.mem_cons_of_mem _ hc)
    rw [List.foldlM_cons]
    obtain ⟨commands, opened⟩ := p
    by_cases hopen : c = '['
    · subst hopen
      -- Each character is one step lemma, and the rest follows from the
      -- longer prefix.
      have hread := ih h.read_open hrest
      rw [List.append_assoc] at hread
      exact hread
    · by_cases hclose : c = ']'
      · subst hclose
        cases opened with
        | nil =>
          -- Nothing is open: reading stops here, with the number of commands
          -- before it.
          have hsize : commands.size = front.length := h.size_eq
          show Outcome _ (.error ⟨commands.size⟩)
          rw [hsize]
          exact .error h rfl rfl
        | cons start opened =>
          have hread := ih h.read_close hrest
          rw [List.append_assoc] at hread
          exact hread
      · obtain ⟨a, rfl⟩ := exists_atom_of_isCommand (hcs c List.mem_cons_self) hopen hclose
        have hread := ih (h.read_atom a) hrest
        rw [List.append_assoc] at hread
        rw [Draft.read_atom]
        exact hread

/-- What reading a source comes to, counted in its commands. -/
theorem outcome_source (source : String) :
    Outcome (source.toList.filter isCommand) (source.toList.foldlM Draft.read ⟨#[], []⟩) := by
  rw [← foldlM_read_filter]
  exact outcome_foldlM reads_nil fun c hc => (List.mem_filter.mp hc).2

/-- Reading succeeds on balanced brackets, and finds a fault in others. -/
theorem parse_cases (source : String) :
    (∃ p, parse source = .ok p ∧ Balanced (source.toList.filter isCommand) ∧
      Program.Pairs (source.toList.filter isCommand) p) ∨
    ∃ k, parse source = .error ⟨k⟩ ∧ ¬ Balanced (source.toList.filter isCommand) ∧
      Fault (source.toList.filter isCommand) k := by
  have houtcome := outcome_source source
  unfold parse
  generalize source.toList.filter isCommand = cs at houtcome ⊢
  generalize source.toList.foldlM Draft.read ⟨#[], []⟩ = read at houtcome ⊢
  cases houtcome with
  | ok p reads =>
    obtain ⟨commands, opened⟩ := p
    cases opened with
    | nil => exact Or.inl ⟨commands, rfl, reads.opens.balanced, reads.pairs rfl⟩
    | cons k opened => exact Or.inr ⟨k, rfl, reads.opens.not_balanced, reads.fault_open rfl⟩
  | @error front back p reads closed cut =>
    have hopens := reads.opens
    rw [closed] at hopens
    subst cut
    exact Or.inr ⟨front.length, rfl, not_balanced_close hopens.balanced,
      reads.fault_close closed back⟩

/-- Reading pairs the brackets of a source. It succeeds if and only if the
brackets among the commands are balanced. The program then has one
command for each command of the source, in order, and a jump leads from
one place to another exactly if there are partners at the two. If it
fails, the error names the first `]` with no open `[` before it or, if
there is none, the last `[` that is never closed. -/
theorem parse_pairs_brackets (source : String) :
    ((∃ p, parse source = .ok p) ↔ Balanced (source.toList.filter isCommand)) ∧
    (∀ p, parse source = .ok p → Program.Pairs (source.toList.filter isCommand) p) ∧
    (∀ error, parse source = .error error →
      Fault (source.toList.filter isCommand) error.position) := by
  rcases parse_cases source with ⟨p, hok, hbalanced, hpairs⟩ | ⟨k, herror, hbalanced, hfault⟩
  · refine ⟨⟨fun _ => hbalanced, fun _ => ⟨p, hok⟩⟩, fun p' hok' => ?_, fun error herror => ?_⟩
    · cases hok.symm.trans hok'
      exact hpairs
    · cases hok.symm.trans herror
  · refine ⟨⟨fun ⟨p, hok⟩ => ?_, fun h => absurd h hbalanced⟩, fun p hok => ?_,
      fun error herror' => ?_⟩
    · cases herror.symm.trans hok
    · cases herror.symm.trans hok
    · cases herror.symm.trans herror'
      exact hfault

-- The text between commands does not count, and the inner pair matches.
example : parse "+ once [[]" = .error ⟨1⟩ := by rfl

end EsoHost.Brainfuck
