import EsoHost.Proofs.Piet.Layout

/-!
# `EsoHost.Proofs.Piet.Diagnosis`: what an error says about a text

`Layout` says which texts are read as rows. This module says what
`readRows` reports about the others: which line it blames, and which
place on it.

A line offends (`Offends`) if it is not skipped and is no row, or, when
unknown colors are rejected, if it is a row with an illegal color. The
error is always about the first such line, and it comes in two kinds
(`Blames`).

* On a row, it names the first cell whose color is illegal.
* On a line that is no row, it gives the column where the row stops
  (`StopsAt`). Within the first cell, that is where the cell fails: at
  a missing `#`, or before the pair of digits that is none
  (`FailsInCell`). Once the line starts with a whole cell, it is the end
  of the longest row that the line starts with.

The two rules for columns differ because a later cell that fails is
given back whole. Only the gap before it is kept, as the gap at the end
of a row. So the place never lies inside a later cell, and the longest
row describes it without any reading (`stopsAt_of_readRow`).

Columns count bytes while reading counts characters. Both agree because
the text up to the place can be completed to a row
(`StopsAt.completes`), and rows are plain ASCII (`IsRow.isPlain`). The
rest of the line may hold any characters.
-/

set_option autoImplicit false

namespace EsoHost.Piet

/-! ### Where a row stops -/

/-- The text starts with two hexadecimal digits. -/
def StartsWithByte (text : List Char) : Prop :=
  ∃ b high low rest, text = high :: low :: rest ∧ IsByte b high low

/-- The text consists of this many pairs of hexadecimal digits. -/
inductive AreBytes : Nat → List Char → Prop where
  | nil : AreBytes 0 []
  | cons {n : Nat} {b : UInt8} {high low : Char} {rest : List Char} (first : IsByte b high low)
      (others : AreBytes n rest) : AreBytes (n + 1) (high :: low :: rest)

/-- The line starts with blanks and a whole cell. -/
def StartsWithCell (line : List Char) : Prop :=
  ∃ rgb gap cell rest, line = gap ++ (cell ++ rest) ∧ IsGap gap ∧ IsCell rgb cell

/-- The first cell of a line fails between the two texts. -/
inductive FailsInCell : List Char → List Char → Prop where
  /-- Behind the blanks there is no `#`. -/
  | hash {gap stop : List Char} (blank : IsGap gap) (visible : ∀ c ∈ stop.head?, ¬ IsGap [c])
      (missing : stop.head? ≠ some '#') : FailsInCell gap stop
  /-- Behind the `#` and at most two pairs of digits there is no further
  pair. -/
  | pair {gap pairs stop : List Char} {n : Nat} (blank : IsGap gap) (read : AreBytes n pairs)
      (few : n < 3) (missing : ¬ StartsWithByte stop) : FailsInCell (gap ++ '#' :: pairs) stop

/-- The line, which is no row, stops being one behind the text
`front`. -/
inductive StopsAt (line front : List Char) : Prop where
  | inside {stop : List Char} (broken : ¬ StartsWithCell line) (cut : line = front ++ stop)
      (fails : FailsInCell front stop)
  | behind (whole : StartsWithCell line) (row : ∃ cells, IsRow cells front) (cut : front <+: line)
      (longest : ∀ front', front' <+: line → (∃ cells, IsRow cells front') →
        front'.length ≤ front.length)

/-! ### Which line is to blame -/

/-- The screen color is that of one of the twenty legal colors. -/
def IsLegal (rgb : Rgb) : Prop := rgb ∈ Color.all.map Color.toRgb

/-- The line is no row, or it is a row with a color to reject. -/
def IsFaulty (unknown : UnknownColors) (line : List Char) : Prop :=
  (∀ cells, ¬ IsRow cells line) ∨
    unknown = .reject ∧ ∃ cells, IsRow cells line ∧ ∃ rgb ∈ cells, ¬ IsLegal rgb

/-- The line offends: it is not skipped, and it is faulty. -/
def Offends (unknown : UnknownColors) (line : List Char) : Prop :=
  ¬ IsSkipped line ∧ IsFaulty unknown line

/-- What an error says about the line with this number. -/
inductive Blames (line : List Char) (n : Nat) : SourceError → Prop where
  | badCell {front : List Char} (bad : ∀ cells, ¬ IsRow cells line) (stops : StopsAt line front) :
      Blames line n (.badCell n ((String.ofList front).utf8ByteSize + 1))
  | unknownColor {before after : List Rgb} {rgb : Rgb} (row : IsRow (before ++ rgb :: after) line)
      (legal : ∀ c ∈ before, IsLegal c) (illegal : ¬ IsLegal rgb) :
      Blames line n (.unknownColor n (before.length + 1) rgb)

/-! ### Cells that fail -/

/-- No byte is read exactly where no two digits come. -/
theorem readByte?_eq_none_iff {text : List Char} :
    readByte? text = none ↔ ¬ StartsWithByte text := by
  constructor
  · rintro h ⟨b, high, low, rest, htext, hbyte⟩
    rw [htext, hbyte.readByte?_eq] at h
    exact absurd h (by simp)
  · intro h
    cases hread : readByte? text with
    | none => rfl
    | some found =>
      obtain ⟨high, low, htext, hbyte⟩ := readByte?_eq_some_iff.mp hread
      exact absurd ⟨_, high, low, _, htext, hbyte⟩ h

/-- A cell fails at a missing `#`, or before a missing pair. -/
theorem readCell_eq_error_iff {text stop : List Char} :
    readCell text = .error stop ↔
      text = stop ∧ stop.head? ≠ some '#' ∨
      ∃ n pairs, text = '#' :: (pairs ++ stop) ∧ AreBytes n pairs ∧ n < 3 ∧
        ¬ StartsWithByte stop := by
  constructor
  · intro h
    unfold readCell at h
    split at h
    · rename_i afterHash
      -- The missing pair is the first, the second or the third.
      split at h
      · rename_i hred
        cases h
        exact Or.inr ⟨0, [], rfl, .nil, by omega, readByte?_eq_none_iff.mp hred⟩
      · rename_i hred
        obtain ⟨r, r', rfl, hr⟩ := readByte?_eq_some_iff.mp hred
        split at h
        · rename_i hgreen
          cases h
          exact Or.inr ⟨1, [r, r'], rfl, .cons hr .nil, by omega, readByte?_eq_none_iff.mp hgreen⟩
        · rename_i hgreen
          obtain ⟨g, g', rfl, hg⟩ := readByte?_eq_some_iff.mp hgreen
          split at h
          · rename_i hblue
            cases h
            exact Or.inr ⟨2, [r, r', g, g'], rfl, .cons hr (.cons hg .nil), by omega,
              readByte?_eq_none_iff.mp hblue⟩
          · exact absurd h (by simp)
    · rename_i hhash
      cases h
      refine Or.inl ⟨rfl, ?_⟩
      intro hhead
      obtain ⟨rest, hrest⟩ := List.head?_eq_some_iff.mp hhead
      exact hhash rest hrest
  · rintro (⟨rfl, hhead⟩ | ⟨n, pairs, rfl, hpairs, hn, hstop⟩)
    · unfold readCell
      split
      · exact absurd rfl hhead
      · rfl
    · have hnone := readByte?_eq_none_iff.mpr hstop
      -- One case for each number of pairs that are there.
      cases hpairs with
      | nil => simp only [readCell, List.nil_append, hnone]
      | cons hr hpairs =>
        cases hpairs with
        | nil => simp only [readCell, List.cons_append, List.nil_append, hr.readByte?_eq, hnone]
        | cons hg hpairs =>
          cases hpairs with
          | nil =>
            simp only [readCell, List.cons_append, List.nil_append, hr.readByte?_eq,
              hg.readByte?_eq, hnone]
          | cons _ _ => omega

/-- A line starts with a cell if and only if its first cell is read. -/
theorem startsWithCell_iff {line : List Char} :
    StartsWithCell line ↔ ∃ rgb rest, readCell (line.dropWhile isGap) = .ok (rgb, rest) := by
  constructor
  · rintro ⟨rgb, gap, cell, rest, rfl, hgap, hcell⟩
    refine ⟨rgb, rest, ?_⟩
    rw [hgap.dropWhile_append, hcell.dropWhile_append]
    exact readCell_eq_ok_iff.mpr ⟨cell, rfl, hcell⟩
  · rintro ⟨rgb, rest, hread⟩
    obtain ⟨cell, hsplit, hcell⟩ := readCell_eq_ok_iff.mp hread
    refine ⟨rgb, line.takeWhile isGap, cell, rest, ?_, isGap_takeWhile line, hcell⟩
    rw [← hsplit, List.takeWhile_append_dropWhile]

/-- Nothing is passed over exactly where no blank comes. -/
theorem dropWhile_isGap_eq_self_iff {text : List Char} :
    text.dropWhile isGap = text ↔ ∀ c ∈ text.head?, ¬ IsGap [c] := by
  cases text with
  | nil => simp
  | cons c text =>
    have hsingle : IsGap [c] ↔ isGap c := by simp [IsGap, isGap_iff]
    by_cases hc : isGap c
    · have hshort := (List.dropWhile_suffix isGap (l := text)).length_le
      constructor
      · intro h
        have hlength := congrArg List.length h
        rw [List.dropWhile_cons_of_pos hc, List.length_cons] at hlength
        omega
      · intro h
        exact absurd (hsingle.mpr hc) (h c rfl)
    · simp [List.dropWhile_cons_of_neg hc, hsingle, hc]

/-- The first cell of a line fails where reading it does. -/
theorem failsInCell_iff {line stop : List Char} :
    (∃ front, line = front ++ stop ∧ FailsInCell front stop) ↔
      readCell (line.dropWhile isGap) = .error stop := by
  rw [readCell_eq_error_iff]
  constructor
  · rintro ⟨front, rfl, hfails⟩
    cases hfails with
    | hash blank visible missing =>
      rw [blank.dropWhile_append, dropWhile_isGap_eq_self_iff.mpr visible]
      exact Or.inl ⟨rfl, missing⟩
    | @pair gap pairs _ n blank read few missing =>
      refine Or.inr ⟨n, pairs, ?_, read, few, missing⟩
      rw [List.append_assoc, blank.dropWhile_append]
      rfl
  · -- In both cases the line is its blanks and what is left of it.
    have hline := List.takeWhile_append_dropWhile (p := isGap) (l := line)
    rintro (⟨hstop, missing⟩ | ⟨n, pairs, hstop, read, few, missing⟩)
    · have visible : ∀ c ∈ stop.head?, ¬ IsGap [c] := by
        rw [← dropWhile_isGap_eq_self_iff, ← hstop]
        exact List.dropWhile_idempotent isGap line
      refine ⟨line.takeWhile isGap, ?_, .hash (isGap_takeWhile line) visible missing⟩
      rw [← hstop, hline]
    · refine ⟨line.takeWhile isGap ++ '#' :: pairs, ?_,
        .pair (isGap_takeWhile line) read few missing⟩
      rw [List.append_assoc, List.cons_append, ← hstop, hline]

/-! ### Rows that stop -/

/-- Reading further cells only shortens what is left. -/
theorem dropWhile_readCells_suffix (text : List Char) :
    (readCells text).2.dropWhile isGap <:+ text.dropWhile isGap := by
  fun_induction readCells text with
  | case1 text error herror => exact List.suffix_refl _
  | case2 text rgb rest hcell hgap cells stop hrest ih =>
    obtain ⟨cell, hsplit, -⟩ := readCell_eq_ok_iff.mp hcell
    rw [hrest] at ih
    show stop.dropWhile isGap <:+ text.dropWhile isGap
    rw [hsplit]
    exact ih.trans ((List.dropWhile_suffix isGap).trans (List.suffix_append cell rest))
  | case3 text rgb rest hcell hgap => exact List.suffix_refl _

/-- A line fails to be a row in its first cell, or because something is
left behind the further ones. -/
theorem readRow_eq_error_iff {line stop : List Char} :
    readRow line = .error stop ↔ readCell (line.dropWhile isGap) = .error stop ∨
      ∃ rgb rest, readCell (line.dropWhile isGap) = .ok (rgb, rest) ∧
        (readCells rest).2.dropWhile isGap = stop ∧ stop ≠ [] := by
  unfold readRow
  cases hcell : readCell (line.dropWhile isGap) with
  | error stop' => simp
  | ok found =>
    obtain ⟨rgb, rest⟩ := found
    cases hleft : (readCells rest).2.dropWhile isGap with
    | nil => simp [hleft, eq_comm]
    | cons c left =>
      have hne : ∀ stop, c :: left = stop → stop ≠ [] := by
        rintro stop rfl
        simp
      simp [hleft, and_iff_left_of_imp (hne stop)]

/-- A row that a line starts with is read to its end at least. -/
theorem suffix_of_readRow {front rest stop : List Char} {cells : List Rgb}
    (h : readRow (front ++ rest) = .error stop) (hrow : IsRow cells front) : stop <:+ rest := by
  obtain @⟨rgb, others, before, cell, further, after, blank, first, hothers, blank'⟩ := hrow
  have hcell : readCell ((before ++ (cell ++ (further ++ after)) ++ rest).dropWhile isGap)
      = .ok (rgb, further ++ (after ++ rest)) := by
    rw [List.append_assoc, blank.dropWhile_append, List.append_assoc, first.dropWhile_append,
      List.append_assoc]
    exact readCell_eq_ok_iff.mpr ⟨cell, rfl, first⟩
  rcases readRow_eq_error_iff.mp h with herror | ⟨rgb', rest', hcell', hstop, -⟩
  · exact absurd (hcell.symm.trans herror) (by simp)
  · cases hcell.symm.trans hcell'
    rw [hothers.readCells_append] at hstop
    -- The gap at the end of the row is passed over in any case.
    have hleft := dropWhile_readCells_suffix (after ++ rest)
    rw [hstop, blank'.dropWhile_append] at hleft
    exact hleft.trans (List.dropWhile_suffix isGap)

/-- Reading stops behind the longest row that the line starts with. -/
theorem stopsAt_of_readRow {line stop : List Char} (h : readRow line = .error stop) :
    ∃ front, line = front ++ stop ∧ StopsAt line front := by
  rcases readRow_eq_error_iff.mp h with herror | ⟨rgb, rest, hcell, hstop, -⟩
  · obtain ⟨front, hcut, hfails⟩ := failsInCell_iff.mpr herror
    refine ⟨front, hcut, .inside ?_ hcut hfails⟩
    intro hwhole
    obtain ⟨rgb, rest, hcell⟩ := startsWithCell_iff.mp hwhole
    exact absurd (herror.symm.trans hcell) (by simp)
  · obtain ⟨cell, hsplit, hfirst⟩ := readCell_eq_ok_iff.mp hcell
    have hcells : readCells rest = ((readCells rest).1, (readCells rest).2) := rfl
    obtain ⟨further, hrest, hothers⟩ := AreFurther.of_readCells hcells
    -- The row is what has been read and the gap behind it.
    have hgap := List.takeWhile_append_dropWhile (p := isGap) (l := (readCells rest).2)
    rw [hstop] at hgap
    have hrow := IsRow.intro (isGap_takeWhile line) hfirst hothers
      (isGap_takeWhile (readCells rest).2)
    have hcut : line = line.takeWhile isGap
        ++ (cell ++ (further ++ (readCells rest).2.takeWhile isGap)) ++ stop := by
      rw [List.append_assoc, List.append_assoc, List.append_assoc, hgap, ← hrest, ← hsplit,
        List.takeWhile_append_dropWhile]
    refine ⟨_, hcut, .behind (startsWithCell_iff.mpr ⟨rgb, rest, hcell⟩) ⟨_, hrow⟩
      ⟨stop, hcut.symm⟩ ?_⟩
    -- No row reaches further: reading would have gone on to its end.
    rintro front' ⟨rest', rfl⟩ ⟨cells', hrow'⟩
    have hle := (suffix_of_readRow h hrow').length_le
    have hlength := congrArg List.length hcut
    rw [List.length_append, List.length_append] at hlength
    omega

/-- A line stops being a row in one place only. -/
theorem StopsAt.unique {line front front' : List Char} (h : StopsAt line front)
    (h' : StopsAt line front') : front = front' := by
  cases h with
  | @inside stop broken cut fails =>
    cases h' with
    | @inside stop' broken' cut' fails' =>
      -- Both texts end where reading stops, and that is one place.
      have hread := failsInCell_iff.mp ⟨front, cut, fails⟩
      cases hread.symm.trans (failsInCell_iff.mp ⟨front', cut', fails'⟩)
      exact List.append_cancel_right (cut.symm.trans cut')
    | behind whole => exact absurd whole broken
  | behind whole row cut longest =>
    cases h' with
    | inside broken => exact absurd whole broken
    | behind whole' row' cut' longest' =>
      -- Each row is as long as the other, and both are the front of one line.
      have hle := longest front' cut' row'
      have hge := longest' front cut row
      exact (List.prefix_of_prefix_length_le cut cut' hge).eq_of_length (by omega)

/-- Where a line stops being a row is where reading it stops. -/
theorem readRow_eq_error_iff_stopsAt {line stop : List Char} :
    readRow line = .error stop ↔
      (∀ cells, ¬ IsRow cells line) ∧ ∃ front, line = front ++ stop ∧ StopsAt line front := by
  constructor
  · intro h
    refine ⟨?_, stopsAt_of_readRow h⟩
    intro cells hrow
    exact absurd (h.symm.trans (readRow_eq_ok_iff.mpr hrow)) (by simp)
  · rintro ⟨hbad, front, hcut, hstops⟩
    cases hread : readRow line with
    | ok cells => exact absurd (readRow_eq_ok_iff.mp hread) (hbad cells)
    | error stop' =>
      obtain ⟨front', hcut', hstops'⟩ := stopsAt_of_readRow hread
      cases hstops.unique hstops'
      rw [List.append_cancel_left (hcut.symm.trans hcut')]

/-! ### Columns -/

/-- Pairs of digits can be put together. -/
theorem AreBytes.append {n m : Nat} {pairs more : List Char} (h : AreBytes n pairs)
    (h' : AreBytes m more) : AreBytes (m + n) (pairs ++ more) := by
  induction h with
  | nil => exact h'
  | cons first _ ih => exact .cons first ih

/-- Zeros are pairs of digits. -/
theorem areBytes_zeros (n : Nat) : AreBytes n (List.replicate (2 * n) '0') := by
  induction n with
  | zero => exact .nil
  | succ n ih => exact .cons (isByte_hexByte 0) ih

/-- Three pairs of digits make a cell, and a cell behind blanks makes a
row. -/
theorem AreBytes.exists_isRow {gap pairs : List Char} (h : AreBytes 3 pairs) (hgap : IsGap gap) :
    ∃ cells, IsRow cells (gap ++ '#' :: pairs) := by
  cases h with
  | @cons _ red r r' _ hr h =>
    cases h with
    | @cons _ green g g' _ hg h =>
      cases h with
      | @cons _ blue b b' _ hb h =>
        cases h
        have hcell : IsCell ⟨red, green, blue⟩ ['#', r, r', g, g', b, b'] :=
          ⟨r, r', g, g', b, b', rfl, hr, hg, hb⟩
        exact ⟨_, IsRow.intro hgap hcell .nil isGap_nil⟩

/-- The text up to where a row stops can be completed to a row. -/
theorem StopsAt.completes {line front : List Char} (h : StopsAt line front) :
    ∃ rest cells, IsRow cells (front ++ rest) := by
  cases h with
  | inside _ _ fails =>
    cases fails with
    | hash blank _ _ =>
      exact ⟨'#' :: List.replicate 6 '0', (areBytes_zeros 3).exists_isRow blank⟩
    | @pair gap pairs _ n blank read few _ =>
      -- Zeros stand in for the pairs that are missing.
      have hthree : AreBytes 3 (pairs ++ List.replicate (2 * (3 - n)) '0') := by
        have hmore := read.append (areBytes_zeros (3 - n))
        rw [Nat.sub_add_cancel (by omega)] at hmore
        exact hmore
      refine ⟨List.replicate (2 * (3 - n)) '0', ?_⟩
      rw [List.append_assoc, List.cons_append]
      exact hthree.exists_isRow blank
  | behind _ row _ _ =>
    refine ⟨[], ?_⟩
    rw [List.append_nil]
    exact row

/-- Plain text has one byte for each character. -/
theorem IsPlain.utf8ByteSize_ofList {text : List Char} (h : IsPlain text) :
    (String.ofList text).utf8ByteSize = text.length := by
  induction text with
  | nil => rfl
  | cons c text ih =>
    have hone : c.utf8Size = 1 := by
      rw [Char.utf8Size_eq_one_iff]
      rcases h c List.mem_cons_self with rfl | hprintable
      · decide
      · show c.toNat ≤ 127
        omega
    have htext := ih fun d hd => h d (List.mem_cons_of_mem c hd)
    rw [String.ofList_cons, String.utf8ByteSize_append, htext, String.utf8ByteSize_singleton, hone,
      List.length_cons, Nat.add_comm]

/-- Up to where a row stops, bytes and characters count alike. -/
theorem StopsAt.utf8ByteSize_eq {line front : List Char} (h : StopsAt line front) :
    (String.ofList front).utf8ByteSize = front.length := by
  obtain ⟨rest, cells, hrow⟩ := h.completes
  apply IsPlain.utf8ByteSize_ofList
  intro c hc
  exact hrow.isPlain c (List.mem_append_left rest hc)

/-- The text up to where a row stops is the front of the line. -/
theorem StopsAt.cut_prefix {line front : List Char} (h : StopsAt line front) : front <+: line := by
  cases h with
  | inside _ cut _ => exact ⟨_, cut.symm⟩
  | behind _ _ cut _ => exact cut

/-- A row stops between two characters of its line, not within one. -/
theorem StopsAt.isValid {line front : List Char} (h : StopsAt line front) :
    (String.ofList front).rawEndPos.IsValid (String.ofList line) := by
  obtain ⟨rest, rfl⟩ := h.cut_prefix
  rw [String.Pos.Raw.isValid_iff_exists_append]
  exact ⟨String.ofList front, String.ofList rest, String.ofList_append, rfl⟩

/-! ### Lines at fault -/

/-- The legal screen colors are those for which there is a color. -/
theorem isLegal_iff {rgb : Rgb} : IsLegal rgb ↔ Color.ofRgb? rgb ≠ none := by
  rw [IsLegal, Option.ne_none_iff_exists']
  constructor
  · intro h
    obtain ⟨c, -, rfl⟩ := List.mem_map.mp h
    exact ⟨c, Color.ofRgb?_toRgb c⟩
  · rintro ⟨c, hc⟩
    rw [Color.ofRgb?_eq_some_iff.mp hc]
    exact List.mem_map_of_mem (List.mem_of_find?_eq_some hc)

/-- A color is refused exactly if it is illegal and illegal colors are
to be rejected. -/
theorem UnknownColors.resolve?_eq_none_iff {unknown : UnknownColors} {rgb : Rgb} :
    unknown.resolve? rgb = none ↔ unknown = .reject ∧ ¬ IsLegal rgb := by
  rw [isLegal_iff, not_not]
  unfold resolve?
  cases Color.ofRgb? rgb <;> cases unknown <;> simp

/-- Of the elements, numbered from `k` on, the first that is kept and not
good gives the error. -/
def FirstError {α β ε : Type} (kept : α → Bool) (good : α → Prop) (f : α → Nat → Except ε β)
    (xs : List α) (k : Nat) (error : ε) : Prop :=
  ∃ before x after, xs = before ++ x :: after ∧ (∀ y ∈ before, kept y → good y) ∧ kept x ∧
    f x (before.length + k) = .error error

section FirstError

variable {α β ε : Type} {p : α → Bool} {good : α → Prop} {f : α → Nat → Except ε β} {x : α}
  {xs : List α} {k : Nat} {e : ε}

/-- The first error is at the first element, or else in the rest. -/
theorem firstError_cons : FirstError p good f (x :: xs) k e ↔
    p x ∧ f x k = .error e ∨
      (p x → good x) ∧ FirstError p good f xs (k + 1) e := by
  constructor
  · rintro ⟨before, y, after, hsplit, hbefore, hy, herror⟩
    cases before with
    | nil =>
      cases hsplit
      rw [List.length_nil, Nat.zero_add] at herror
      exact Or.inl ⟨hy, herror⟩
    | cons z before =>
      cases hsplit
      obtain ⟨hx, hbefore⟩ := List.forall_mem_cons.mp hbefore
      rw [List.length_cons, Nat.add_right_comm] at herror
      exact Or.inr ⟨hx, before, y, after, rfl, hbefore, hy, herror⟩
  · rintro (⟨hx, herror⟩ | ⟨hx, before, y, after, rfl, hbefore, hy, herror⟩)
    · rw [← Nat.zero_add k] at herror
      exact ⟨[], x, xs, rfl, fun y hy => absurd hy List.not_mem_nil, hx, herror⟩
    · refine ⟨x :: before, y, after, rfl, List.forall_mem_cons.mpr ⟨hx, hbefore⟩, hy, ?_⟩
      rw [List.length_cons, Nat.add_right_comm]
      exact herror

/-- A numbered pass over the elements that are kept gives the first
error. The numbers count all elements. -/
theorem mapM_zipIdx_eq_error_iff (hgood : ∀ x n, (∃ y, f x n = .ok y) ↔ good x) :
    ((xs.zipIdx k).filter fun x => p x.1).mapM (fun x => f x.1 x.2) = .error e ↔
      FirstError p good f xs k e := by
  induction xs generalizing k with
  | nil => simp [FirstError, pure, Except.pure]
  | cons x xs ih =>
    rw [List.zipIdx_cons, firstError_cons, ← ih]
    by_cases hkept : p x
    · rw [List.filter_cons_of_pos (by exact hkept), List.mapM_cons]
      generalize ((xs.zipIdx (k + 1)).filter fun x => p x.1).mapM (fun x => f x.1 x.2) = rest
      cases hfx : f x k with
      | error e' =>
        -- The pass ends here, and the first element is not good.
        have hbad : ¬ good x := by
          rw [← hgood x k, hfx]
          simp
        simp [hkept, hbad, bind, Except.bind]
      | ok b =>
        have hpassed : good x := (hgood x k).mp ⟨b, hfx⟩
        cases rest <;> simp [hpassed, bind, Except.bind, pure, Except.pure]
    · rw [List.filter_cons_of_neg (by exact hkept)]
      simp [hkept]

end FirstError

/-- Where some elements have a property, one of them comes first. -/
theorem exists_first {α : Type} {P : α → Prop} {xs : List α} (h : ∃ x ∈ xs, P x) :
    ∃ before x after, xs = before ++ x :: after ∧ (∀ y ∈ before, ¬ P y) ∧ P x := by
  classical
  obtain ⟨x, hmem, hx⟩ := h
  have hsome : (xs.find? fun x => decide (P x)).isSome :=
    List.find?_isSome.mpr ⟨x, hmem, decide_eq_true hx⟩
  obtain ⟨y, hy⟩ := Option.isSome_iff_exists.mp hsome
  obtain ⟨hfound, before, after, rfl, hbefore⟩ := List.find?_eq_some_iff_append.mp hy
  refine ⟨before, y, after, rfl, ?_, of_decide_eq_true hfound⟩
  intro z hz
  simpa using hbefore z hz

/-- The color of a cell, or the error about it. -/
def resolveCell (unknown : UnknownColors) (line : Nat) (rgb : Rgb) (cell : Nat) :
    Except SourceError Color :=
  (unknown.resolve? rgb).elim (.error (.unknownColor line cell rgb)) .ok

/-- A cell has a color unless it is to be rejected. -/
theorem exists_resolveCell_eq_ok_iff {unknown : UnknownColors} {line : Nat} (rgb : Rgb)
    (cell : Nat) : (∃ c, resolveCell unknown line rgb cell = .ok c) ↔
      ¬ (unknown = .reject ∧ ¬ IsLegal rgb) := by
  rw [← UnknownColors.resolve?_eq_none_iff, resolveCell]
  cases unknown.resolve? rgb <;> simp

/-- The error about a cell names its place and its screen color. -/
theorem resolveCell_eq_error_iff {unknown : UnknownColors} {line cell : Nat} {rgb : Rgb}
    {error : SourceError} : resolveCell unknown line rgb cell = .error error ↔
      (unknown = .reject ∧ ¬ IsLegal rgb) ∧ error = .unknownColor line cell rgb := by
  rw [← UnknownColors.resolve?_eq_none_iff, resolveCell]
  cases unknown.resolve? rgb <;> simp [eq_comm]

section Lines

variable {unknown : UnknownColors} {line : List Char} {n : Nat} {error : SourceError}

/-- On a row, reading a line is a pass over its cells. -/
theorem readLine_of_isRow {cells : List Rgb} (h : IsRow cells line) :
    readLine unknown line n
      = (cells.zipIdx 1).mapM fun x => resolveCell unknown n x.1 x.2 := by
  unfold readLine
  rw [readRow_eq_ok_iff.mpr h]
  show (cells.zipIdx 1).mapM _ = _
  congr 1
  funext ⟨rgb, k⟩
  dsimp only [resolveCell]
  cases unknown.resolve? rgb <;> rfl

/-- On a row, the error is about the first color to reject. -/
theorem readLine_eq_error_iff_of_isRow {cells : List Rgb} (h : IsRow cells line) :
    readLine unknown line n = .error error ↔
      unknown = .reject ∧ ∃ before rgb after, cells = before ++ rgb :: after ∧
        (∀ c ∈ before, IsLegal c) ∧ ¬ IsLegal rgb ∧
        error = .unknownColor n (before.length + 1) rgb := by
  -- Every cell counts, so the pass leaves none out.
  have hpass : readLine unknown line n = .error error ↔
      FirstError (fun _ => true) (fun rgb => ¬ (unknown = .reject ∧ ¬ IsLegal rgb))
        (resolveCell unknown n) cells 1 error := by
    rw [readLine_of_isRow h, ← mapM_zipIdx_eq_error_iff exists_resolveCell_eq_ok_iff,
      List.filter_true]
  rw [hpass]
  constructor
  · rintro ⟨before, rgb, after, hcells, hbefore, -, herror⟩
    obtain ⟨⟨hreject, hillegal⟩, herror⟩ := resolveCell_eq_error_iff.mp herror
    refine ⟨hreject, before, rgb, after, hcells, ?_, hillegal, herror⟩
    intro c hc
    by_contra hbad
    exact hbefore c hc rfl ⟨hreject, hbad⟩
  · rintro ⟨hreject, before, rgb, after, hcells, hbefore, hillegal, herror⟩
    refine ⟨before, rgb, after, hcells, ?_, rfl,
      resolveCell_eq_error_iff.mpr ⟨⟨hreject, hillegal⟩, herror⟩⟩
    intro c hc _ hbad
    exact hbad.2 (hbefore c hc)

/-- A line is refused if and only if it is faulty, with an error that
blames it. -/
theorem readLine_eq_error_iff :
    readLine unknown line n = .error error ↔ IsFaulty unknown line ∧ Blames line n error := by
  -- Reading fails or not, and each case leaves one kind of error only.
  cases hread : readRow line with
  | error stop =>
    obtain ⟨hbad, front, hcut, hstops⟩ := readRow_eq_error_iff_stopsAt.mp hread
    -- The reader counts characters from the end of the line. The column
    -- counts bytes from its start.
    have hcolumn : line.length - stop.length = (String.ofList front).utf8ByteSize := by
      rw [hstops.utf8ByteSize_eq, hcut, List.length_append, Nat.add_sub_cancel]
    have hline : readLine unknown line n
        = .error (.badCell n ((String.ofList front).utf8ByteSize + 1)) := by
      unfold readLine
      rw [hread, ← hcolumn]
    rw [hline]
    constructor
    · intro h
      cases h
      exact ⟨Or.inl hbad, .badCell hbad hstops⟩
    · rintro ⟨-, hblames⟩
      cases hblames with
      | badCell _ stops => rw [hstops.unique stops]
      | unknownColor row _ _ => exact absurd row (hbad _)
  | ok cells =>
    have hrow := readRow_eq_ok_iff.mp hread
    rw [readLine_eq_error_iff_of_isRow hrow]
    constructor
    · rintro ⟨hreject, before, rgb, after, rfl, hbefore, hillegal, rfl⟩
      have hmem : rgb ∈ before ++ rgb :: after := List.mem_append_right _ List.mem_cons_self
      exact ⟨Or.inr ⟨hreject, _, hrow, rgb, hmem, hillegal⟩, .unknownColor hrow hbefore hillegal⟩
    · rintro ⟨hbad | ⟨hreject, -⟩, hblames⟩
      · exact absurd hrow (hbad cells)
      · cases hblames with
        | badCell bad _ => exact absurd hrow (bad cells)
        | @unknownColor before after rgb row legal illegal =>
          -- A line is a row of one list of cells only.
          cases hread.symm.trans (readRow_eq_ok_iff.mpr row)
          exact ⟨hreject, before, rgb, after, rfl, legal, illegal, rfl⟩

/-- There is something to blame on each faulty line. -/
theorem IsFaulty.exists_blames (h : IsFaulty unknown line) (n : Nat) :
    ∃ error, Blames line n error := by
  rcases h with hbad | ⟨-, cells, hrow, hillegal⟩
  · cases hread : readRow line with
    | ok cells => exact absurd (readRow_eq_ok_iff.mp hread) (hbad cells)
    | error stop =>
      obtain ⟨front, -, hstops⟩ := stopsAt_of_readRow hread
      exact ⟨_, .badCell hbad hstops⟩
  · obtain ⟨before, rgb, after, rfl, hlegal, hillegal⟩ := exists_first hillegal
    exact ⟨_, .unknownColor hrow (fun c hc => not_not.mp (hlegal c hc)) hillegal⟩

/-- A line is read exactly if nothing is wrong with it. -/
theorem exists_readLine_eq_ok_iff (line : List Char) (n : Nat) :
    (∃ row, readLine unknown line n = .ok row) ↔ ¬ IsFaulty unknown line := by
  constructor
  · rintro ⟨row, hrow⟩ hfaulty
    obtain ⟨error, hblames⟩ := hfaulty.exists_blames n
    exact absurd (hrow.symm.trans (readLine_eq_error_iff.mpr ⟨hfaulty, hblames⟩)) (by simp)
  · intro hfine
    cases hread : readLine unknown line n with
    | ok row => exact ⟨row, rfl⟩
    | error error => exact absurd (readLine_eq_error_iff.mp hread).1 hfine

end Lines

/-! ### Texts at fault -/

/-- The error about a text is about its first line that offends. -/
theorem readRows_eq_error_iff {unknown : UnknownColors} {text : String} {error : SourceError} :
    readRows unknown text = .error error ↔
      ∃ before line after, IsCut text.toList (before ++ line :: after) ∧
        (∀ earlier ∈ before, ¬ Offends unknown earlier) ∧ Offends unknown line ∧
        Blames line (before.length + 1) error := by
  have hpass : readRows unknown text = .error error ↔
      FirstError (fun line => !isSkipped line) (fun line => ¬ IsFaulty unknown line)
        (readLine unknown) (lines text.toList) 1 error := by
    rw [← mapM_zipIdx_eq_error_iff exists_readLine_eq_ok_iff]
    exact Iff.rfl
  have hkept : ∀ line, !isSkipped line ↔ ¬ IsSkipped line := by
    intro line
    rw [← isSkipped_iff, Bool.not_eq_true', Bool.not_eq_true]
  rw [hpass]
  constructor
  · rintro ⟨before, line, after, hlines, hbefore, hline, herror⟩
    obtain ⟨hfaulty, hblames⟩ := readLine_eq_error_iff.mp herror
    have hoffends : Offends unknown line := ⟨(hkept line).mp hline, hfaulty⟩
    have hearlier : ∀ earlier ∈ before, ¬ Offends unknown earlier := by
      intro earlier hmem hbad
      exact hbefore earlier hmem ((hkept earlier).mpr hbad.1) hbad.2
    -- A line feed at the very end starts no line for the reader, but an
    -- empty piece for the cut.
    rcases cut_eq_lines text.toList with hcut | hcut
    · rw [hlines] at hcut
      exact ⟨before, line, after, isCut_iff.mpr hcut, hearlier, hoffends, hblames⟩
    · rw [hlines, List.append_assoc, List.cons_append] at hcut
      exact ⟨before, line, after ++ [[]], isCut_iff.mpr hcut, hearlier, hoffends, hblames⟩
  · rintro ⟨before, line, after, hcut, hearlier, hoffends, hblames⟩
    have hlines : ∃ after, lines text.toList = before ++ line :: after := by
      rcases cut_eq_lines text.toList with hlines | hlines
      · exact ⟨after, hlines.symm.trans (isCut_iff.mp hcut)⟩
      · -- The line that offends is not the empty one at the end.
        rw [isCut_iff.mp hcut] at hlines
        cases after using List.reverseRecOn with
        | nil =>
          cases (List.append_inj' hlines rfl).2
          exact absurd ⟨[], [], rfl, by simp, Or.inl rfl⟩ hoffends.1
        | append_singleton after last =>
          rw [← List.cons_append, ← List.append_assoc] at hlines
          exact ⟨after, (List.append_inj' hlines rfl).1.symm⟩
    obtain ⟨after, hlines⟩ := hlines
    refine ⟨before, line, after, hlines, ?_, (hkept line).mpr hoffends.1,
      readLine_eq_error_iff.mpr ⟨hoffends.2, hblames⟩⟩
    intro earlier hmem hnot hfaulty
    exact hearlier earlier hmem ⟨(hkept earlier).mp hnot, hfaulty⟩

/-- A text is refused if and only if one of its lines offends. -/
theorem exists_readRows_eq_error_iff {unknown : UnknownColors} {text : String} :
    (∃ error, readRows unknown text = .error error) ↔
      ∃ lines, IsCut text.toList lines ∧ ∃ line ∈ lines, Offends unknown line := by
  constructor
  · rintro ⟨error, herror⟩
    obtain ⟨before, line, after, hcut, -, hoffends, -⟩ := readRows_eq_error_iff.mp herror
    exact ⟨_, hcut, line, List.mem_append_right _ List.mem_cons_self, hoffends⟩
  · rintro ⟨lines, hcut, hline⟩
    obtain ⟨before, line, after, rfl, hearlier, hoffends⟩ := exists_first hline
    obtain ⟨error, hblames⟩ := hoffends.2.exists_blames (before.length + 1)
    exact ⟨error, readRows_eq_error_iff.mpr
      ⟨before, line, after, hcut, hearlier, hoffends, hblames⟩⟩

/-- A text is refused if and only if one of its lines offends, and the
error is about the first such line. Its column lies between two
characters of the line, and the text before it can be completed to a
row. A color that is refused is spelled as in its cell, but in upper
case. -/
theorem errors_blame_first_offender :
    (∀ (unknown : UnknownColors) (text : String),
      (∃ error, readRows unknown text = .error error) ↔
        ∃ lines, IsCut text.toList lines ∧ ∃ line ∈ lines, Offends unknown line) ∧
    (∀ (unknown : UnknownColors) (text : String) (error : SourceError),
      readRows unknown text = .error error ↔
        ∃ before line after, IsCut text.toList (before ++ line :: after) ∧
          (∀ earlier ∈ before, ¬ Offends unknown earlier) ∧ Offends unknown line ∧
          Blames line (before.length + 1) error) ∧
    (∀ line front : List Char, StopsAt line front →
      (String.ofList front).rawEndPos.IsValid (String.ofList line) ∧
        ∃ rest cells, IsRow cells (front ++ rest)) ∧
    ∀ (n k : Nat) (rgb : Rgb) (cell hex : String), IsCell rgb cell.toList →
      hex.toList = cell.toList.map Char.toUpper →
      (SourceError.unknownColor n k rgb).message
        = s!"line {n}, codel {k}: {hex} is not a legal codel color" := by
  refine ⟨fun _ _ => exists_readRows_eq_error_iff, fun _ _ _ => readRows_eq_error_iff,
    fun _ _ hstops => ⟨hstops.isValid, hstops.completes⟩, ?_⟩
  intro n k rgb cell hex hcell hupper
  have hhex : hex = rgb.hex := by
    rw [← String.toList_inj, hupper, isCell_iff_hex.mp hcell]
  rw [hhex]
  rfl

end EsoHost.Piet
