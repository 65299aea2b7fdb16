import Mathlib.Data.List.DropRight
import Mathlib.Data.List.Forall2
import EsoHost.Piet.Program

/-!
# `EsoHost.Proofs.Piet.Layout`: the texts that read as a grid

`readRows` reads a text character by character. This module says
which texts are read as which rows, without a reader: a text is a
layout of rows (`IsLayout`) if it can be put together from them.

* A cell (`IsCell`) is `#` and six hexadecimal digits in any case.
* A row (`IsRow`) is one or more cells with blanks between them, and
  possibly blanks before the first and after the last.
* A line may also be skipped (`IsSkipped`): it is empty but for white
  space, or a comment.
* A text is cut into lines (`IsCut`) at each line feed, and the
  carriage returns at the end of a line do not belong to it.

`readRow_eq_ok_iff`, `readLine_eq_ok_iff` and `readRows_eq_ok_iff` say
that reading a row, a line and a text inverts this. `isCell_iff_hex`
ties cells to the printed form of colors, and `isLayout_text` shows
that the plain printed form of a grid is a layout of its rows.

Three kinds of blanks meet on a line. Spaces and tabs stand between
cells; any white space makes a line blank; and carriage returns end
lines. A row starts with spaces, tabs and a `#`, so it is never taken
for a line to skip (`IsRow.not_isSkipped`).
-/

set_option autoImplicit false

namespace EsoHost.Piet

/-! ### Cells -/

/-- The digit, in either case, has the value `n`. -/
def IsDigit (n : Nat) (digit : Char) : Prop := digit.toUpper = hexDigit n

/-- The two digits spell a byte. -/
def IsByte (b : UInt8) (high low : Char) : Prop :=
  IsDigit (b.toNat / 16) high ∧ IsDigit (b.toNat % 16) low

/-- The text is a cell of a screen color. -/
def IsCell (rgb : Rgb) (text : List Char) : Prop :=
  ∃ r r' g g' b b', text = ['#', r, r', g, g', b, b'] ∧
    IsByte rgb.red r r' ∧ IsByte rgb.green g g' ∧ IsByte rgb.blue b b'

/-- Upper case in terms of code points. -/
theorem toNat_toUpper (c : Char) :
    c.toUpper.toNat = if 97 ≤ c.toNat ∧ c.toNat ≤ 122 then c.toNat - 32 else c.toNat := by
  unfold Char.toUpper
  have hle : ('a'.val ≤ c.val ∧ c.val ≤ 'z'.val) ↔ (97 ≤ c.toNat ∧ c.toNat ≤ 122) := Iff.rfl
  split
  · rename_i h
    have hbound := hle.mp h
    rw [if_pos hbound]
    show (c.val + ('A'.val - 'a'.val)).toNat = c.toNat - 32
    rw [UInt32.toNat_add]
    show (c.toNat + 4294967264) % 2 ^ 32 = c.toNat - 32
    omega
  · rename_i h
    rw [if_neg (mt hle.mpr h)]

/-- Digits and letters are two runs of code points. -/
theorem toNat_hexDigit {n : Nat} (h : n < 16) :
    (hexDigit n).toNat = if n < 10 then 48 + n else 55 + n := by
  revert n
  decide

/-- The value of a digit is read in either case. -/
theorem hexValue?_eq_some_iff {c : Char} {n : Nat} :
    hexValue? c = some n ↔ n < 16 ∧ IsDigit n c := by
  have hdigit : n < 16 → (IsDigit n c ↔ c.toUpper.toNat = if n < 10 then 48 + n else 55 + n) := by
    intro hn
    rw [← toNat_hexDigit hn]
    exact ⟨congrArg Char.toNat, Char.toNat_inj.mp⟩
  -- Digit, capital and small letter each have their own run of code
  -- points, and the first two are their own upper case.
  have hvalue : hexValue? c =
      if 48 ≤ c.toNat ∧ c.toNat ≤ 57 then some (c.toNat - 48)
      else if 65 ≤ c.toNat ∧ c.toNat ≤ 70 then some (c.toNat - 65 + 10)
      else if 97 ≤ c.toNat ∧ c.toNat ≤ 102 then some (c.toNat - 97 + 10)
      else none := rfl
  have hupper := toNat_toUpper c
  constructor
  · intro h
    have hn : n < 16 := by
      rw [hvalue] at h
      split_ifs at h <;> simp only [Option.some.injEq] at h <;> omega
    refine ⟨hn, (hdigit hn).mpr ?_⟩
    rw [hvalue] at h
    -- All that is left is about numbers: three runs against two.
    split_ifs at h hupper <;> simp only [Option.some.injEq] at h <;> split <;> omega
  · rintro ⟨hn, h⟩
    rw [hdigit hn] at h
    rw [hvalue]
    by_cases hten : n < 10
    · rw [if_pos hten] at h
      have hc : c.toNat = 48 + n := by split_ifs at hupper <;> omega
      rw [if_pos (by omega), hc, Nat.add_sub_cancel_left]
    · rw [if_neg hten] at h
      -- The digit is a letter, in lower or in upper case.
      split_ifs at hupper with hlower
      · rw [if_neg (by omega), if_neg (by omega), if_pos (by omega)]
        exact congrArg some (by omega)
      · rw [if_neg (by omega), if_pos (by omega)]
        exact congrArg some (by omega)

/-- Reading a byte takes its two digits and nothing else. -/
theorem readByte?_eq_some_iff {text rest : List Char} {n : UInt8} :
    readByte? text = some (n, rest) ↔ ∃ a b, text = a :: b :: rest ∧ IsByte n a b := by
  constructor
  · intro h
    unfold readByte? at h
    split at h
    · rename_i a b rest'
      obtain ⟨high, hhigh, h⟩ := Option.bind_eq_some_iff.mp h
      obtain ⟨low, hlow, h⟩ := Option.bind_eq_some_iff.mp h
      cases h
      obtain ⟨hh, hdigit⟩ := hexValue?_eq_some_iff.mp hhigh
      obtain ⟨hl, hdigit'⟩ := hexValue?_eq_some_iff.mp hlow
      have hnat : (UInt8.ofNat (16 * high + low)).toNat = 16 * high + low :=
        UInt8.toNat_ofNat_of_lt (by show _ < 256; omega)
      refine ⟨a, b, rfl, ?_, ?_⟩
      · rw [hnat, show (16 * high + low) / 16 = high by omega]
        exact hdigit
      · rw [hnat, show (16 * high + low) % 16 = low by omega]
        exact hdigit'
    · exact absurd h (by simp)
  · rintro ⟨a, b, rfl, ha, hb⟩
    have hlt : n.toNat < 256 := n.toNat_lt
    have hhigh := hexValue?_eq_some_iff.mpr ⟨show n.toNat / 16 < 16 by omega, ha⟩
    have hlow := hexValue?_eq_some_iff.mpr ⟨show n.toNat % 16 < 16 by omega, hb⟩
    simp only [readByte?, hhigh, hlow]
    show some (UInt8.ofNat (16 * (n.toNat / 16) + n.toNat % 16), rest) = _
    rw [Nat.div_add_mod, UInt8.ofNat_toNat]

/-- A byte is read whatever follows it. -/
theorem IsByte.readByte?_eq {n : UInt8} {high low : Char} (h : IsByte n high low)
    (text : List Char) : readByte? (high :: low :: text) = some (n, text) :=
  readByte?_eq_some_iff.mpr ⟨high, low, rfl, h⟩

/-- Reading a cell takes the cell and nothing else. -/
theorem readCell_eq_ok_iff {text rest : List Char} {rgb : Rgb} :
    readCell text = .ok (rgb, rest) ↔ ∃ cell, text = cell ++ rest ∧ IsCell rgb cell := by
  constructor
  · intro h
    unfold readCell at h
    split at h
    · split at h
      · exact absurd h (by simp)
      · rename_i hred
        split at h
        · exact absurd h (by simp)
        · rename_i hgreen
          split at h
          · exact absurd h (by simp)
          · rename_i hblue
            cases h
            obtain ⟨r, r', rfl, hr⟩ := readByte?_eq_some_iff.mp hred
            obtain ⟨g, g', rfl, hg⟩ := readByte?_eq_some_iff.mp hgreen
            obtain ⟨b, b', rfl, hb⟩ := readByte?_eq_some_iff.mp hblue
            exact ⟨_, rfl, r, r', g, g', b, b', rfl, hr, hg, hb⟩
    · exact absurd h (by simp)
  · rintro ⟨cell, rfl, r, r', g, g', b, b', rfl, hr, hg, hb⟩
    simp only [readCell, List.cons_append, List.nil_append, hr.readByte?_eq, hg.readByte?_eq,
      hb.readByte?_eq]

/-- A printed byte has two digits. -/
theorem hexByte_toList (b : UInt8) :
    (hexByte b).toList = [hexDigit (b.toNat / 16), hexDigit (b.toNat % 16)] := by
  simp [hexByte]

/-- A printed color is `#` and its three bytes. -/
theorem hex_toList (rgb : Rgb) : rgb.hex.toList =
    ['#', hexDigit (rgb.red.toNat / 16), hexDigit (rgb.red.toNat % 16),
      hexDigit (rgb.green.toNat / 16), hexDigit (rgb.green.toNat % 16),
      hexDigit (rgb.blue.toNat / 16), hexDigit (rgb.blue.toNat % 16)] := by
  simp [Rgb.hex, hexByte_toList]

/-- A cell is the printed form of its color, in any letter case. -/
theorem isCell_iff_hex {rgb : Rgb} {text : List Char} :
    IsCell rgb text ↔ text.map Char.toUpper = rgb.hex.toList := by
  rw [hex_toList]
  constructor
  · rintro ⟨r, r', g, g', b, b', rfl, ⟨hr, hr'⟩, ⟨hg, hg'⟩, hb, hb'⟩
    simp only [IsDigit] at hr hr' hg hg' hb hb'
    simp only [List.map_cons, List.map_nil, hr, hr', hg, hg', hb, hb']
    rfl
  · intro h
    -- Seven characters in upper case come from seven characters.
    simp only [List.map_eq_cons_iff, List.map_eq_nil_iff] at h
    obtain ⟨hash, _, rfl, hhash, r, _, rfl, hr, r', _, rfl, hr', g, _, rfl, hg, g', _, rfl, hg',
      b, _, rfl, hb, b', _, rfl, hb', rfl⟩ := h
    have hsame : hash = '#' := by
      have hupper := toNat_toUpper hash
      rw [hhash] at hupper
      apply Char.toNat_inj.mp
      show hash.toNat = 35
      have hcode : ('#' : Char).toNat = 35 := rfl
      split_ifs at hupper <;> omega
    exact ⟨r, r', g, g', b, b', by rw [hsame], ⟨hr, hr'⟩, ⟨hg, hg'⟩, hb, hb'⟩

/-! ### Rows -/

/-- The text consists of spaces and tabs. -/
def IsGap (text : List Char) : Prop := ∀ c ∈ text, c = ' ' ∨ c = '\t'

/-- The text consists of cells, each after a gap. -/
inductive AreFurther : List Rgb → List Char → Prop where
  | nil : AreFurther [] []
  | cons {rgb : Rgb} {cells : List Rgb} {gap cell rest : List Char} (blank : IsGap gap)
      (nonempty : gap ≠ []) (first : IsCell rgb cell) (others : AreFurther cells rest) :
      AreFurther (rgb :: cells) (gap ++ (cell ++ rest))

/-- The line is a row: a cell and further cells, and gaps around
them. -/
inductive IsRow : List Rgb → List Char → Prop where
  | intro {rgb : Rgb} {cells : List Rgb} {before cell further after : List Char}
      (blank : IsGap before) (first : IsCell rgb cell) (others : AreFurther cells further)
      (blank' : IsGap after) : IsRow (rgb :: cells) (before ++ (cell ++ (further ++ after)))

/-- Nothing is a gap too. -/
theorem isGap_nil : IsGap [] := fun _ hc => absurd hc List.not_mem_nil

/-- The reader takes the same two characters for a gap. -/
theorem isGap_iff {c : Char} : isGap c ↔ c = ' ' ∨ c = '\t' := by
  simp [isGap]

/-- A gap is passed over. -/
theorem IsGap.dropWhile_append {gap text : List Char} (h : IsGap gap) :
    (gap ++ text).dropWhile isGap = text.dropWhile isGap :=
  List.dropWhile_append_of_pos fun c hc => isGap_iff.mpr (h c hc)

/-- Only a gap is passed over completely. -/
theorem dropWhile_isGap_eq_nil_iff {text : List Char} :
    text.dropWhile isGap = [] ↔ IsGap text := by
  simp only [List.dropWhile_eq_nil_iff, IsGap, isGap_iff]

/-- What is passed over is a gap. -/
theorem isGap_takeWhile (text : List Char) : IsGap (text.takeWhile isGap) :=
  fun _ hc => isGap_iff.mp (List.mem_takeWhile_imp hc)

/-- A cell does not start with a gap. -/
theorem IsCell.dropWhile_append {rgb : Rgb} {cell rest : List Char} (h : IsCell rgb cell) :
    (cell ++ rest).dropWhile isGap = cell ++ rest := by
  obtain ⟨r, r', g, g', b, b', rfl, -⟩ := h
  rfl

/-- Further cells are read up to where they end. -/
theorem AreFurther.of_readCells {text stop : List Char} {cells : List Rgb}
    (h : readCells text = (cells, stop)) :
    ∃ further, text = further ++ stop ∧ AreFurther cells further := by
  fun_induction readCells text generalizing cells stop with
  | case1 text error herror =>
    cases h
    exact ⟨[], rfl, .nil⟩
  | case2 text rgb rest hcell hgap cells' stop' hrest ih =>
    cases h
    obtain ⟨cell, hsplit, hfirst⟩ := readCell_eq_ok_iff.mp hcell
    obtain ⟨further, rfl, hothers⟩ := ih hrest
    refine ⟨text.takeWhile isGap ++ (cell ++ further), ?_, ?_⟩
    · rw [List.append_assoc, List.append_assoc, ← hsplit, List.takeWhile_append_dropWhile]
    · refine .cons (isGap_takeWhile text) ?_ hfirst hothers
      -- The text starts with a gap, so the gap is not empty.
      cases text with
      | nil => exact absurd hgap (by simp)
      | cons c text =>
        have hc : isGap c := by simpa using hgap
        simp [hc]
  | case3 text rgb rest hcell hgap =>
    cases h
    exact ⟨[], rfl, .nil⟩

/-- A gap holds no further cell. -/
theorem IsGap.readCells_eq {gap : List Char} (h : IsGap gap) : readCells gap = ([], gap) := by
  have hnone : readCell (gap.dropWhile isGap) = .error [] := by
    rw [dropWhile_isGap_eq_nil_iff.mpr h]
    rfl
  rw [readCells]
  split
  · rfl
  · rename_i hcell
    exact absurd (hnone.symm.trans hcell) (by simp)

/-- Further cells are read whatever follows them. -/
theorem AreFurther.readCells_append {cells : List Rgb} {further : List Char}
    (h : AreFurther cells further) (text : List Char) :
    readCells (further ++ text) = (cells ++ (readCells text).1, (readCells text).2) := by
  induction h with
  | nil => rfl
  | @cons rgb cells gap cell rest blank nonempty first others ih =>
    have hcell : readCell ((gap ++ (cell ++ rest) ++ text).dropWhile isGap)
        = .ok (rgb, rest ++ text) := by
      rw [List.append_assoc, blank.dropWhile_append, List.append_assoc, first.dropWhile_append]
      exact readCell_eq_ok_iff.mpr ⟨cell, rfl, first⟩
    have hhead : (gap ++ (cell ++ rest) ++ text).head?.any isGap := by
      cases gap with
      | nil => exact absurd rfl nonempty
      | cons c gap => simpa using isGap_iff.mpr (blank c List.mem_cons_self)
    rw [readCells]
    split
    · rename_i herror
      exact absurd (hcell.symm.trans herror) (by simp)
    · rename_i hcell'
      cases hcell.symm.trans hcell'
      rw [if_pos hhead, ih]
      rfl

/-- The lines that are read as rows are the rows. -/
theorem readRow_eq_ok_iff {line : List Char} {cells : List Rgb} :
    readRow line = .ok cells ↔ IsRow cells line := by
  constructor
  · intro h
    unfold readRow at h
    split at h
    · exact absurd h (by simp)
    · rename_i rgb rest hcell
      obtain ⟨cell, hsplit, hfirst⟩ := readCell_eq_ok_iff.mp hcell
      cases hcells : readCells rest with
      | mk others stop =>
        simp only [hcells] at h
        split at h
        · rename_i hstop
          cases h
          obtain ⟨further, rfl, hothers⟩ := AreFurther.of_readCells hcells
          have hline : line = line.takeWhile isGap ++ (cell ++ (further ++ stop)) := by
            rw [← hsplit, List.takeWhile_append_dropWhile]
          rw [hline]
          exact .intro (isGap_takeWhile line) hfirst hothers
            (dropWhile_isGap_eq_nil_iff.mp hstop)
        · exact absurd h (by simp)
  · rintro @⟨rgb, others, before, cell, further, after, blank, first, hothers, blank'⟩
    have hcell : readCell (cell ++ (further ++ after)) = .ok (rgb, further ++ after) :=
      readCell_eq_ok_iff.mpr ⟨cell, rfl, first⟩
    simp only [readRow, blank.dropWhile_append, first.dropWhile_append, hcell,
      hothers.readCells_append, blank'.readCells_eq, dropWhile_isGap_eq_nil_iff.mpr blank',
      List.append_nil]

/-! ### Colors -/

/-- A color is known by its screen color. -/
theorem Color.ofRgb?_eq_some_iff {rgb : Rgb} {c : Color} : ofRgb? rgb = some c ↔ rgb = c.toRgb := by
  constructor
  · intro h
    have hfound : decide (c.toRgb = rgb) := List.find?_some (p := fun c => decide (toRgb c = rgb)) h
    exact (of_decide_eq_true hfound).symm
  · rintro rfl
    exact ofRgb?_toRgb c

/-- No other screen color is taken for a color. -/
theorem UnknownColors.resolve?_reject (rgb : Rgb) :
    UnknownColors.resolve? .reject rgb = Color.ofRgb? rgb := by
  unfold resolve?
  cases Color.ofRgb? rgb <;> rfl

/-- A pass over a list succeeds if and only if it does so at each
element. -/
theorem mapM_eq_ok_iff {α β ε : Type} {f : α → Except ε β} {xs : List α} {ys : List β} :
    xs.mapM f = .ok ys ↔ List.Forall₂ (fun x y => f x = .ok y) xs ys := by
  induction xs generalizing ys with
  | nil =>
    show Except.ok [] = Except.ok ys ↔ _
    simp [eq_comm]
  | cons x xs ih =>
    rw [List.mapM_cons]
    cases hx : f x with
    | error e =>
      constructor
      · intro h
        exact absurd h (by simp [bind, Except.bind])
      · intro h
        cases h with
        | cons hy _ => exact absurd (hx.symm.trans hy) (by simp)
    | ok y =>
      cases hxs : xs.mapM f with
      | error e =>
        constructor
        · intro h
          exact absurd h (by simp [bind, Except.bind])
        · intro h
          cases h with
          | cons _ hys => exact absurd (hxs.symm.trans (ih.mpr hys)) (by simp)
      | ok zs =>
        show Except.ok (y :: zs) = Except.ok ys ↔ _
        constructor
        · intro h
          cases h
          exact .cons hx (ih.mp hxs)
        · intro h
          cases h with
          | cons hy hys =>
            cases hx.symm.trans hy
            cases hxs.symm.trans (ih.mpr hys)
            rfl

/-- The lines that are read as a row of colors are the rows of their
screen colors. -/
theorem readLine_eq_ok_iff {text : List Char} {n : Nat} {row : List Color} :
    readLine .reject text n = .ok row ↔ IsRow (row.map Color.toRgb) text := by
  rw [← readRow_eq_ok_iff]
  unfold readLine
  cases readRow text with
  | error stop => simp
  | ok cells =>
    -- Every cell of the row has to be known, each by itself.
    show (cells.zipIdx 1).mapM _ = _ ↔ _
    rw [mapM_eq_ok_iff, Except.ok.injEq]
    -- The numbers only serve the errors.
    have hzip := List.forall₂_map_left_iff (R := fun rgb c => rgb = Color.toRgb c) (f := Prod.fst)
      (l := cells.zipIdx 1) (u := row)
    rw [List.zipIdx_map_fst, ← List.forall₂_map_right_iff (R := Eq), List.forall₂_eq_eq_eq] at hzip
    rw [hzip]
    simp only [← Color.ofRgb?_eq_some_iff, UnknownColors.resolve?_reject]
    constructor
    · refine List.Forall₂.imp fun p c h => ?_
      cases hcolor : Color.ofRgb? p.1 with
      | none => simp [hcolor] at h
      | some d => simpa [hcolor] using h
    · refine List.Forall₂.imp fun p c h => ?_
      simp [h]

/-! ### Lines -/

/-- The line holds no row: behind white space there is nothing, or a
comment. -/
def IsSkipped (line : List Char) : Prop :=
  ∃ blank rest, line = blank ++ rest ∧ (∀ c ∈ blank, Text.isWhiteSpace c) ∧
    (rest = [] ∨ rest.head? = some ';')

/-- The lines read as rows, one after the other. -/
inductive AreRows : List (List Char) → List (List Color) → Prop where
  | nil : AreRows [] []
  | skip {line : List Char} {lines : List (List Char)} {rows : List (List Color)}
      (skipped : IsSkipped line) (others : AreRows lines rows) : AreRows (line :: lines) rows
  | row {line : List Char} {lines : List (List Char)} {row : List Color}
      {rows : List (List Color)} (first : IsRow (row.map Color.toRgb) line)
      (others : AreRows lines rows) : AreRows (line :: lines) (row :: rows)

/-- The text is cut into lines at each line feed. A line has all the
carriage returns at its end taken off. -/
def IsCut (text : List Char) (lines : List (List Char)) : Prop :=
  ∃ pieces, pieces ≠ [] ∧ (∀ piece ∈ pieces, '\n' ∉ piece) ∧ text = ['\n'].intercalate pieces ∧
    List.Forall₂ (fun piece line =>
      (∃ n, piece = line ++ List.replicate n '\r') ∧ line.getLast? ≠ some '\r') pieces lines

/-- The text is a layout of the rows. -/
def IsLayout (rows : List (List Color)) (text : String) : Prop :=
  ∃ lines, IsCut text.toList lines ∧ AreRows lines rows

/-- The reader skips the lines that are to be skipped. -/
theorem isSkipped_iff {line : List Char} : isSkipped line ↔ IsSkipped line := by
  constructor
  · intro h
    refine ⟨line.takeWhile Text.isWhiteSpace, line.dropWhile Text.isWhiteSpace,
      List.takeWhile_append_dropWhile.symm, fun c hc => List.mem_takeWhile_imp hc, ?_⟩
    unfold isSkipped at h
    split at h
    · rename_i hnil
      exact Or.inl hnil
    · rename_i c rest hcons
      rw [hcons]
      exact Or.inr (congrArg some (of_decide_eq_true h))
  · rintro ⟨blank, rest, rfl, hblank, hrest⟩
    unfold isSkipped
    rw [List.dropWhile_append_of_pos hblank]
    rcases hrest with rfl | hsemicolon
    · rfl
    · cases rest with
      | nil => rfl
      | cons c rest =>
        cases hsemicolon
        rfl

/-- A gap is white space. -/
theorem IsGap.isWhiteSpace {gap : List Char} (h : IsGap gap) : ∀ c ∈ gap, Text.isWhiteSpace c := by
  intro c hc
  rcases h c hc with rfl | rfl <;> decide

/-- A row is no line to skip: its first visible character is `#`. -/
theorem IsRow.not_isSkipped {cells : List Rgb} {line : List Char} (h : IsRow cells line) :
    ¬ isSkipped line := by
  obtain ⟨blank, ⟨r, r', g, g', b, b', rfl, -⟩, others, blank'⟩ := h
  unfold isSkipped
  rw [List.dropWhile_append_of_pos blank.isWhiteSpace]
  exact of_decide_eq_true rfl

/-- Only the lines that are not skipped count. -/
theorem areRows_iff {lines : List (List Char)} {rows : List (List Color)} :
    AreRows lines rows ↔
      List.Forall₂ (fun line row => IsRow (row.map Color.toRgb) line)
        (lines.filter fun line => !isSkipped line) rows := by
  constructor
  · intro h
    induction h with
    | nil => exact .nil
    | skip skipped _ ih =>
      rw [List.filter_cons_of_neg (by simp [isSkipped_iff.mpr skipped])]
      exact ih
    | row first _ ih =>
      rw [List.filter_cons_of_pos (by simpa using first.not_isSkipped)]
      exact .cons first ih
  · intro h
    induction lines generalizing rows with
    | nil =>
      cases h
      exact .nil
    | cons line lines ih =>
      by_cases hskipped : isSkipped line
      · rw [List.filter_cons_of_neg (by simp [hskipped])] at h
        exact .skip (isSkipped_iff.mp hskipped) (ih h)
      · rw [List.filter_cons_of_pos (by simpa using hskipped)] at h
        cases h with
        | cons first others => exact .row first (ih others)

/-- Taking off carriage returns at the end. -/
theorem rdropWhile_eq_iff {piece line : List Char} :
    piece.rdropWhile (· = '\r') = line ↔
      (∃ n, piece = line ++ List.replicate n '\r') ∧ line.getLast? ≠ some '\r' := by
  constructor
  · rintro rfl
    refine ⟨?_, ?_⟩
    · -- What is taken off is a run of carriage returns.
      refine ⟨(piece.reverse.takeWhile (· = '\r')).length, ?_⟩
      have hrun : piece.reverse.takeWhile (· = '\r')
          = List.replicate (piece.reverse.takeWhile (· = '\r')).length '\r' :=
        List.eq_replicate_of_mem fun c hc =>
          of_decide_eq_true (List.mem_takeWhile_imp (p := (· = '\r')) hc)
      have hsplit := congrArg List.reverse
        (List.takeWhile_append_dropWhile (p := (· = '\r')) (l := piece.reverse))
      rw [List.reverse_append, List.reverse_reverse] at hsplit
      rw [← List.reverse_replicate, ← hrun]
      exact hsplit.symm
    · intro hlast
      have hne : piece.rdropWhile (· = '\r') ≠ [] := by
        intro hnil
        rw [hnil] at hlast
        exact absurd hlast (by simp)
      rw [List.getLast?_eq_some_getLast hne, Option.some.injEq] at hlast
      exact List.rdropWhile_last_not (· = '\r') piece hne (by simp [hlast])
  · rintro ⟨⟨n, rfl⟩, hlast⟩
    -- One carriage return less at the end each time.
    induction n with
    | zero =>
      rw [List.replicate_zero, List.append_nil, List.rdropWhile_eq_self_iff]
      intro hne h
      exact hlast (by rw [List.getLast?_eq_some_getLast hne, of_decide_eq_true h])
    | succ n ih =>
      rw [List.replicate_succ', ← List.append_assoc, List.rdropWhile_concat_pos _ _ _ (by simp)]
      exact ih

/-- The pieces of a text hold no line feed. -/
theorem not_mem_of_mem_splitOn {text piece : List Char} (h : piece ∈ text.splitOn '\n') :
    '\n' ∉ piece := by
  induction text generalizing piece with
  | nil =>
    rw [List.splitOn_nil, List.mem_singleton] at h
    rw [h]
    exact List.not_mem_nil
  | cons c text ih =>
    rw [List.splitOn_cons_eq_if_modifyHead] at h
    split at h
    · rcases List.mem_cons.mp h with rfl | h
      · exact List.not_mem_nil
      · exact ih h
    · rename_i hc
      -- The character belongs to the first piece.
      obtain ⟨first, others, hpieces⟩ := List.exists_cons_of_ne_nil (List.splitOn_ne_nil '\n' text)
      rw [hpieces] at h ih
      rcases List.mem_cons.mp h with rfl | h
      · rw [List.mem_cons, not_or]
        refine ⟨fun heq => hc (by simp [← heq]), ih List.mem_cons_self⟩
      · exact ih (List.mem_cons_of_mem _ h)

/-- There is one way to cut a text. -/
theorem isCut_iff {text : List Char} {lines : List (List Char)} :
    IsCut text lines ↔ (text.splitOn '\n').map (·.rdropWhile (· = '\r')) = lines := by
  have hstrip : ∀ {pieces : List (List Char)},
      List.Forall₂ (fun piece line =>
        (∃ n, piece = line ++ List.replicate n '\r') ∧ line.getLast? ≠ some '\r') pieces lines
      ↔ pieces.map (·.rdropWhile (· = '\r')) = lines := by
    intro pieces
    simp only [← rdropWhile_eq_iff]
    rw [← List.forall₂_map_left_iff (R := Eq), List.forall₂_eq_eq_eq]
  constructor
  · rintro ⟨pieces, hne, hfree, rfl, hlines⟩
    -- No piece holds a line feed, so that cutting finds the pieces again.
    rw [List.splitOn_intercalate '\n' hfree hne]
    exact hstrip.mp hlines
  · intro h
    exact ⟨text.splitOn '\n', List.splitOn_ne_nil _ _, fun _ => not_mem_of_mem_splitOn,
      (List.intercalate_splitOn '\n').symm, hstrip.mpr h⟩

/-- The lines of a text are those into which it is cut, but for an empty
one at the end. -/
theorem cut_eq_lines (text : List Char) :
    (text.splitOn '\n').map (·.rdropWhile (· = '\r')) = lines text ∨
      (text.splitOn '\n').map (·.rdropWhile (· = '\r')) = lines text ++ [[]] := by
  show _ = List.map _ (if _ then _ else _) ∨ _ = List.map _ (if _ then _ else _) ++ [[]]
  split
  · rename_i hlast
    obtain ⟨pieces, hpieces⟩ := List.getLast?_eq_some_iff.mp hlast
    rw [hpieces, List.dropLast_concat, List.map_append]
    exact Or.inr rfl
  · exact Or.inl rfl

/-- An empty line at the end would be skipped. -/
theorem filter_lines (text : List Char) :
    (lines text).filter (fun line => !isSkipped line)
      = ((text.splitOn '\n').map (·.rdropWhile (· = '\r'))).filter fun line => !isSkipped line := by
  rcases cut_eq_lines text with hcut | hcut
  · rw [hcut]
  · rw [hcut, List.filter_append]
    exact (List.append_nil _).symm

/-- The numbers of the lines only serve the errors. -/
theorem forall₂_zipIdx_iff {α β : Type} (kept : α → Bool) (R : α → β → Prop) {xs : List α}
    {ys : List β} {k : Nat} :
    List.Forall₂ (fun x y => R x.1 y) ((xs.zipIdx k).filter fun x => kept x.1) ys ↔
      List.Forall₂ R (xs.filter kept) ys := by
  have hzip := List.forall₂_map_left_iff (R := R) (f := Prod.fst)
    (l := (xs.zipIdx k).filter (kept ∘ Prod.fst)) (u := ys)
  rw [← List.filter_map, List.zipIdx_map_fst] at hzip
  exact hzip.symm

/-- The texts that are read as rows are the layouts of the rows. -/
theorem readRows_eq_ok_iff {text : String} {rows : List (List Color)} :
    readRows .reject text = .ok rows ↔ IsLayout rows text := by
  have hlayout : IsLayout rows text ↔
      List.Forall₂ (fun line row => IsRow (row.map Color.toRgb) line)
        ((lines text.toList).filter fun line => !isSkipped line) rows := by
    rw [filter_lines, ← areRows_iff]
    constructor
    · rintro ⟨_, hcut, hrows⟩
      rw [isCut_iff.mp hcut]
      exact hrows
    · intro hrows
      exact ⟨_, isCut_iff.mpr rfl, hrows⟩
  rw [hlayout, readRows, mapM_eq_ok_iff]
  simp only [readLine_eq_ok_iff]
  exact forall₂_zipIdx_iff (fun line => !isSkipped line)
    fun line (row : List Color) => IsRow (row.map Color.toRgb) line

/-! ### Grids -/

/-- The rows of a grid, from top to bottom. -/
def Grid.rows (g : Grid) : List (List Color) :=
  (List.range g.height).map fun y => (g.cells.toList.drop (y * g.width)).take g.width

/-- Cutting a list into slices of one length loses nothing. -/
theorem flatten_slices {α : Type} {width height : Nat} {xs : List α}
    (h : xs.length = width * height) :
    ((List.range height).map fun y => (xs.drop (y * width)).take width).flatten = xs := by
  induction height generalizing xs with
  | zero =>
    rw [Nat.mul_zero, List.length_eq_zero_iff] at h
    rw [h]
    rfl
  | succ height ih =>
    rw [Nat.mul_succ] at h
    have hrest := @ih (xs.drop width) (by rw [List.length_drop, h, Nat.add_sub_cancel])
    rw [List.range_succ_eq_map, List.map_cons, List.flatten_cons, List.map_map]
    -- The slices after the first are those of the rest of the list.
    have hslices : (fun y => (xs.drop (y * width)).take width) ∘ Nat.succ
        = fun y => ((xs.drop width).drop (y * width)).take width := by
      funext y
      simp only [Function.comp_apply, List.drop_drop, Nat.succ_mul, Nat.add_comm]
    rw [hslices, hrest, Nat.zero_mul, List.drop_zero, List.take_append_drop]

namespace Grid

/-- Each row of a grid is as long as the grid is wide. -/
theorem length_of_mem_rows {g : Grid} {row : List Color} (h : row ∈ g.rows) :
    row.length = g.width := by
  obtain ⟨y, hy, rfl⟩ := List.mem_map.mp h
  have hrow : (y + 1) * g.width ≤ g.height * g.width :=
    Nat.mul_le_mul_right _ (List.mem_range.mp hy)
  rw [Nat.succ_mul, Nat.mul_comm g.height] at hrow
  rw [List.length_take, List.length_drop, Array.length_toList, g.size_cells]
  omega

/-- A grid has as many rows as it is high. -/
theorem length_rows (g : Grid) : g.rows.length = g.height := by
  simp [rows]

/-- No row is longer or shorter than the first. -/
theorem raggedRow?_rows (g : Grid) : raggedRow? g.width g.rows = none :=
  raggedRow?_eq_none_iff.mpr fun _ => length_of_mem_rows

/-- The first row is there, and gives the width. -/
theorem length_headD_rows (g : Grid) : (g.rows.headD []).length = g.width := by
  cases hrows : g.rows with
  | nil =>
    have hlength := g.length_rows
    rw [hrows] at hlength
    exact absurd hlength.symm (Nat.ne_of_gt g.height_pos)
  | cons row rows =>
    have hmem : row ∈ g.rows := by
      rw [hrows]
      exact List.mem_cons_self
    exact length_of_mem_rows hmem

/-- A grid is made from its rows. -/
theorem ofRows_rows (g : Grid) : ofRows g.rows = .ok g := by
  unfold ofRows
  rw [dif_pos (by rw [length_headD_rows]; exact g.width_pos)]
  split
  · rename_i hragged
    rw [length_headD_rows, raggedRow?_rows] at hragged
    exact absurd hragged (by simp)
  · have hcells : g.rows.flatten.toArray = g.cells := by
      rw [rows, flatten_slices (by rw [Array.length_toList, g.size_cells])]
    -- Two grids are equal if their measures and cells are; the proofs that
    -- they carry do not count.
    have hraster : ∀ (r : Raster Color) (hw : 0 < r.width) (hh : 0 < r.height),
        r.width = g.width → r.height = g.height → r.cells = g.cells → (⟨r, hw, hh⟩ : Grid) = g := by
      rintro ⟨width, height, cells, hsize⟩ _ _ rfl rfl rfl
      rfl
    exact congrArg Except.ok (hraster _ _ _ g.length_headD_rows g.length_rows hcells)

end Grid

/-! ### Printed grids -/

/-- The plain printed form of a row: a space between two cells. -/
def rowText (row : List Color) : List Char := [' '].intercalate (row.map (·.hex.toList))

/-- The plain printed form of a grid: a line feed between two rows. -/
def Grid.text (g : Grid) : String := String.ofList (['\n'].intercalate (g.rows.map rowText))

/-- A printed digit is a digit. -/
theorem isDigit_hexDigit {n : Nat} (h : n < 16) : IsDigit n (hexDigit n) := by
  revert n
  unfold IsDigit
  decide

/-- A printed byte is a byte. -/
theorem isByte_hexByte (b : UInt8) :
    IsByte b (hexDigit (b.toNat / 16)) (hexDigit (b.toNat % 16)) := by
  have hlt : b.toNat < 256 := b.toNat_lt
  exact ⟨isDigit_hexDigit (by omega), isDigit_hexDigit (by omega)⟩

/-- A printed color is a cell. -/
theorem isCell_hex (c : Color) : IsCell c.toRgb c.hex.toList := by
  refine ⟨_, _, _, _, _, _, ?_, isByte_hexByte _, isByte_hexByte _, isByte_hexByte _⟩
  simp [Color.hex, hex_toList]

/-- A printed row is a cell, and then a space and a cell for each other
color. -/
theorem rowText_cons (c : Color) (row : List Color) :
    rowText (c :: row) = c.hex.toList ++ row.flatMap fun d => ' ' :: d.hex.toList := by
  induction row generalizing c with
  | nil => simp [rowText]
  | cons d row ih =>
    show [' '].intercalate (c.hex.toList :: d.hex.toList :: row.map (·.hex.toList)) = _
    rw [List.intercalate_cons_cons]
    show c.hex.toList ++ [' '] ++ rowText (d :: row) = _
    rw [ih, List.flatMap_cons, List.append_assoc, List.cons_append, List.nil_append,
      List.cons_append]

/-- Printed cells with a space before each are further cells. -/
theorem areFurther_hex (row : List Color) :
    AreFurther (row.map Color.toRgb) (row.flatMap fun d => ' ' :: d.hex.toList) := by
  induction row with
  | nil => exact .nil
  | cons d row ih =>
    have hgap : IsGap [' '] := by
      intro c hc
      exact Or.inl (List.mem_singleton.mp hc)
    have hcons := AreFurther.cons hgap (by simp) (isCell_hex d) ih
    rw [List.cons_append, List.nil_append, ← List.cons_append] at hcons
    rw [List.map_cons, List.flatMap_cons]
    exact hcons

/-- A printed row is a row. -/
theorem isRow_rowText {row : List Color} (h : row ≠ []) :
    IsRow (row.map Color.toRgb) (rowText row) := by
  obtain ⟨c, row, rfl⟩ := List.exists_cons_of_ne_nil h
  have hrow := IsRow.intro isGap_nil (isCell_hex c) (areFurther_hex row) isGap_nil
  rw [List.append_nil, List.nil_append, ← rowText_cons] at hrow
  exact hrow

/-- The text holds no character that ends a line. -/
def InLine (text : List Char) : Prop := ∀ c ∈ text, c ≠ '\n' ∧ c ≠ '\r'

/-- The text consists of tabs and printable ASCII characters. -/
def IsPlain (text : List Char) : Prop := ∀ c ∈ text, c = '\t' ∨ 32 ≤ c.toNat ∧ c.toNat < 127

/-- Plain texts can be put together. -/
theorem IsPlain.append {text text' : List Char} (h : IsPlain text) (h' : IsPlain text') :
    IsPlain (text ++ text') := by
  intro c hc
  exact (List.mem_append.mp hc).elim (h c) (h' c)

/-- Plain text does not end a line. -/
theorem IsPlain.inLine {text : List Char} (h : IsPlain text) : InLine text := by
  intro c hc
  -- Line ends have the code points 10 and 13, and a tab has 9.
  have hfeed : ('\n' : Char).toNat = 10 := rfl
  have hreturn : ('\r' : Char).toNat = 13 := rfl
  rcases h c hc with rfl | hprintable
  · decide
  · constructor <;> rintro rfl <;> omega

/-- Gaps are plain. -/
theorem IsGap.isPlain {gap : List Char} (h : IsGap gap) : IsPlain gap := by
  intro c hc
  rcases h c hc with rfl | rfl <;> decide

/-- So are digits, in either case. -/
theorem IsDigit.printable {n : Nat} {c : Char} (hn : n < 16) (h : IsDigit n c) :
    32 ≤ c.toNat ∧ c.toNat < 127 := by
  have hupper := toNat_toUpper c
  rw [show c.toUpper = hexDigit n from h, toNat_hexDigit hn] at hupper
  split_ifs at hupper <;> omega

/-- So are bytes. -/
theorem IsByte.isPlain {b : UInt8} {high low : Char} (h : IsByte b high low) :
    IsPlain [high, low] := by
  have hlt : b.toNat < 256 := b.toNat_lt
  have hhigh := h.1.printable (by omega)
  have hlow := h.2.printable (by omega)
  simp [IsPlain, hhigh, hlow]

/-- So are cells. -/
theorem IsCell.isPlain {rgb : Rgb} {cell : List Char} (h : IsCell rgb cell) : IsPlain cell := by
  obtain ⟨r, r', g, g', b, b', rfl, hr, hg, hb⟩ := h
  have hhash : IsPlain ['#'] := by simp [IsPlain]
  exact hhash.append (hr.isPlain.append (hg.isPlain.append hb.isPlain))

/-- So are any number of them, with their gaps. -/
theorem AreFurther.isPlain {cells : List Rgb} {further : List Char}
    (h : AreFurther cells further) : IsPlain further := by
  induction h with
  | nil => exact fun c hc => absurd hc List.not_mem_nil
  | cons blank _ first _ ih => exact blank.isPlain.append (first.isPlain.append ih)

/-- A row is plain text, so it lies on one line. -/
theorem IsRow.isPlain {cells : List Rgb} {line : List Char} (h : IsRow cells line) :
    IsPlain line := by
  obtain ⟨blank, first, others, blank'⟩ := h
  exact blank.isPlain.append (first.isPlain.append (others.isPlain.append blank'.isPlain))

/-- Printed rows read as rows, each on a line of its own. -/
theorem areRows_rowText {rows : List (List Color)} (h : ∀ row ∈ rows, row ≠ []) :
    AreRows (rows.map rowText) rows := by
  induction rows with
  | nil => exact .nil
  | cons row rows ih =>
    exact .row (isRow_rowText (h row List.mem_cons_self))
      (ih fun r hr => h r (List.mem_cons_of_mem _ hr))

/-- A printed grid is a layout of its rows. -/
theorem isLayout_text (g : Grid) : IsLayout g.rows g.text := by
  have hrows : ∀ row ∈ g.rows, row ≠ [] := by
    intro row hrow
    apply List.ne_nil_of_length_pos
    rw [Grid.length_of_mem_rows hrow]
    exact g.width_pos
  have hline : ∀ line ∈ g.rows.map rowText, InLine line := by
    intro line hline
    obtain ⟨row, hrow, rfl⟩ := List.mem_map.mp hline
    exact (isRow_rowText (hrows row hrow)).isPlain.inLine
  refine ⟨g.rows.map rowText, ⟨g.rows.map rowText, ?_, ?_, by simp [Grid.text], ?_⟩,
    areRows_rowText hrows⟩
  · apply List.ne_nil_of_length_pos
    rw [List.length_map, g.length_rows]
    exact g.height_pos
  · intro line hmem hfeed
    exact (hline line hmem _ hfeed).1 rfl
  · rw [List.forall₂_same]
    intro line hmem
    refine ⟨⟨0, (List.append_nil line).symm⟩, ?_⟩
    intro hreturn
    exact (hline line hmem _ (List.mem_of_getLast? hreturn)).2 rfl

/-- Any layout of the rows of a grid is compiled as the grid is. -/
theorem Program.ofSource_of_isLayout {g : Grid} {text : String} (h : IsLayout g.rows text) :
    ofSource .reject text = .ok (compile g) := by
  have hread : readRows .reject text = .ok g.rows := readRows_eq_ok_iff.mpr h
  rw [ofSource, hread]
  show ((Grid.ofRows g.rows).mapError SourceError.grid >>= fun grid => pure (compile grid)) = _
  rw [g.ofRows_rows]
  rfl

/-- Exactly the layouts of rows are read as these rows. Their cells are
printed colors in any letter case. So each grid, however it is laid
out, reads back and is compiled as itself; and the plain printed form
is a layout. -/
theorem source_reads_layouts :
    (∀ (text : String) (rows : List (List Color)),
      readRows .reject text = .ok rows ↔ IsLayout rows text) ∧
    (∀ (c : Color) (cell : List Char),
      IsCell c.toRgb cell ↔ cell.map Char.toUpper = c.hex.toList) ∧
    ∀ g : Grid, IsLayout g.rows g.text ∧ Grid.ofRows g.rows = .ok g ∧
      ∀ text, IsLayout g.rows text → Program.ofSource .reject text = .ok (.compile g) := by
  refine ⟨fun _ _ => readRows_eq_ok_iff, fun _ _ => isCell_iff_hex, ?_⟩
  intro g
  exact ⟨isLayout_text g, g.ofRows_rows, fun _ => Program.ofSource_of_isLayout⟩

end EsoHost.Piet
