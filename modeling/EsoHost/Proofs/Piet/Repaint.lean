import EsoHost.Proofs.Piet.Diagnosis

/-!
# `EsoHost.Proofs.Piet.Repaint`: what the policy for unknown colors changes

A source is read under one of three policies. Two of them are lenient:
they put white or black in place of every illegal color. This module
says that nothing else depends on the policy.

* `readScreen` reads a source up to its screen colors, before any of them
  is looked at. A lenient policy only fills in colors afterwards
  (`readRows_eq_map`), so the lenient policies fail alike and give rows
  of the same lengths. Rejecting succeeds exactly where all screen colors
  are legal (`readRows_reject_eq_ok_iff`), and then there is nothing to
  fill in.
* `repaint` rewrites the source itself: each cell with an illegal color
  becomes a printed white or black cell, and all else stays, comments and
  line ends included. `readRows_repaint` says that a lenient policy reads
  a source as rejecting reads the repainted one.

The second statement needs every line to be a row or skipped. A text
that is no row has no cells to rewrite.
-/

set_option autoImplicit false

namespace EsoHost.Piet

/-! ### Reading without looking at colors -/

/-- The color that a lenient policy puts in place of an illegal one. -/
def UnknownColors.fill? : UnknownColors → Option Color
  | .reject => none
  | .asWhite => some .white
  | .asBlack => some .black

/-- A legal color stays, and any other is filled in. -/
def Rgb.settle (fill : Color) (rgb : Rgb) : Color := (Color.ofRgb? rgb).getD fill

/-- Reads the row on line number `line` up to its screen colors. -/
def readScreenLine (text : List Char) (line : Nat) : Except SourceError (List Rgb) :=
  (readRow text).mapError fun stop => .badCell line (text.length - stop.length + 1)

/-- Reads the rows of a text up to their screen colors. -/
def readScreen (text : String) : Except SourceError (List (List Rgb)) :=
  (((lines text.toList).zipIdx 1).filter fun (line, _) => !isSkipped line).mapM
    fun (line, n) => readScreenLine line n

/-- A legal color stays. -/
theorem Rgb.settle_toRgb (fill c : Color) : c.toRgb.settle fill = c := by
  rw [settle, Color.ofRgb?_toRgb, Option.getD_some]

/-- Under a lenient policy every screen color becomes a color. -/
theorem UnknownColors.resolve?_eq_settle {unknown : UnknownColors} {fill : Color}
    (h : unknown.fill? = some fill) (rgb : Rgb) :
    unknown.resolve? rgb = some (rgb.settle fill) := by
  unfold resolve? Rgb.settle
  cases Color.ofRgb? rgb with
  | some c => rfl
  | none =>
    cases unknown with
    | reject => cases h
    | asWhite => exact h
    | asBlack => exact h

/-- A change of the results can wait until the pass is over. -/
theorem mapM_map {α β γ ε : Type} (f : α → Except ε β) (g : β → γ) (xs : List α) :
    (xs.mapM fun x => (f x).map g) = (xs.mapM f).map (List.map g) := by
  induction xs with
  | nil => rfl
  | cons x xs ih =>
    rw [List.mapM_cons, List.mapM_cons, ih]
    cases f x with
    | error e => rfl
    | ok y => cases xs.mapM f <;> rfl

section Lenient

variable {unknown : UnknownColors} {fill : Color}

/-- A lenient policy fills in the colors of a row after it is read. -/
theorem readLine_eq_map (h : unknown.fill? = some fill) (text : List Char) (n : Nat) :
    readLine unknown text n = (readScreenLine text n).map (List.map (Rgb.settle fill)) := by
  cases hread : readRow text with
  | error stop =>
    rw [readScreenLine, hread, readLine, hread]
    rfl
  | ok cells =>
    -- There is a color for each cell, so the pass over them cannot fail.
    have hcell : ∀ x : Rgb × Nat, resolveCell unknown n x.1 x.2
        = pure ((Rgb.settle fill ∘ Prod.fst) x) := by
      intro x
      rw [resolveCell, UnknownColors.resolve?_eq_settle h]
      rfl
    rw [readLine_of_isRow (readRow_eq_ok_iff.mp hread), funext hcell, List.mapM_pure,
      ← List.map_map, List.zipIdx_map_fst, readScreenLine, hread]
    rfl

/-- A lenient policy fills in colors after all else is read. -/
theorem readRows_eq_map (h : unknown.fill? = some fill) (text : String) :
    readRows unknown text = (readScreen text).map (List.map (List.map (Rgb.settle fill))) := by
  rw [readScreen, ← mapM_map]
  show List.mapM _ _ = List.mapM _ _
  congr 1
  funext x
  exact readLine_eq_map h x.1 x.2

/-- Under a lenient policy only a line that is no row is at fault. -/
theorem IsFaulty.not_isRow (h : unknown.fill? = some fill) {line : List Char}
    (hfaulty : IsFaulty unknown line) (cells : List Rgb) : ¬ IsRow cells line := by
  rcases hfaulty with hbad | ⟨rfl, -⟩
  · exact hbad cells
  · cases h

/-- A lenient policy has no fault to find with colors. -/
theorem exists_badCell (h : unknown.fill? = some fill) {text : String} {error : SourceError}
    (herror : readRows unknown text = .error error) :
    ∃ line column, error = .badCell line column := by
  obtain ⟨before, line, after, -, -, ⟨-, hfaulty⟩, hblames⟩ := readRows_eq_error_iff.mp herror
  cases hblames with
  | badCell _ _ => exact ⟨_, _, rfl⟩
  | unknownColor row _ _ => exact absurd row (hfaulty.not_isRow h _)

end Lenient

/-- A row is read up to its screen colors, whatever these are. -/
theorem readScreenLine_eq_ok_iff {text : List Char} {n : Nat} {cells : List Rgb} :
    readScreenLine text n = .ok cells ↔ IsRow cells text := by
  rw [← readRow_eq_ok_iff, readScreenLine]
  cases readRow text <;> simp [Except.mapError]

/-- The screen colors are those of the lines that are not skipped. -/
theorem readScreen_eq_ok_iff {text : String} {screen : List (List Rgb)} :
    readScreen text = .ok screen ↔
      List.Forall₂ (fun line cells => IsRow cells line)
        ((lines text.toList).filter fun line => !isSkipped line) screen := by
  rw [readScreen, mapM_eq_ok_iff]
  simp only [readScreenLine_eq_ok_iff]
  exact forall₂_zipIdx_iff (fun line => !isSkipped line) fun line cells => IsRow cells line

/-- Rejecting succeeds where the screen colors are those of legal
colors. -/
theorem readRows_reject_eq_ok_iff {text : String} {rows : List (List Color)} :
    readRows .reject text = .ok rows ↔ readScreen text = .ok (rows.map (List.map Color.toRgb)) := by
  rw [readScreen, readRows, mapM_eq_ok_iff, mapM_eq_ok_iff, List.forall₂_map_right_iff]
  simp only [readLine_eq_ok_iff, readScreenLine_eq_ok_iff]

/-! ### Repainting a source -/

/-- A cell with a legal color, in any letter case, stays as it is
written. Any other becomes a printed cell of the color `fill`. -/
def repaintCell (fill : Color) (cell : List Char) : List Char :=
  if cell.map Char.toUpper ∈ Color.all.map (·.hex.toList) then cell else fill.hex.toList

/-- Repaints the cells of a row. Each starts with `#` and is seven
characters long. -/
def repaintCells (fill : Color) : List Char → List Char
  | '#' :: r :: r' :: g :: g' :: b :: b' :: rest =>
    repaintCell fill ['#', r, r', g, g', b, b'] ++ repaintCells fill rest
  | c :: rest => c :: repaintCells fill rest
  | [] => []

/-- Repaints a line, unless it is skipped. -/
def repaintLine (fill : Color) (line : List Char) : List Char :=
  if isSkipped line then line else repaintCells fill line

/-- Repaints the lines of a text. -/
def repaint (fill : Color) (text : String) : String :=
  String.ofList (['\n'].intercalate ((text.toList.splitOn '\n').map (repaintLine fill)))

/-- Every line of the text is a row or skipped. -/
def IsWellWritten (text : String) : Prop :=
  ∃ lines, IsCut text.toList lines ∧ ∀ line ∈ lines, IsSkipped line ∨ ∃ cells, IsRow cells line

section Cells

variable (fill : Color) {rgb : Rgb} {cell : List Char}

/-- A cell is written for one screen color only. -/
theorem IsCell.unique {rgb' : Rgb} (h : IsCell rgb cell) (h' : IsCell rgb' cell) : rgb = rgb' := by
  have hread : readCell (cell ++ []) = .ok (rgb, []) := readCell_eq_ok_iff.mpr ⟨cell, rfl, h⟩
  have hread' : readCell (cell ++ []) = .ok (rgb', []) := readCell_eq_ok_iff.mpr ⟨cell, rfl, h'⟩
  cases hread.symm.trans hread'
  rfl

/-- Whether a cell is legal can be seen from how it is written. -/
theorem IsCell.mem_hex_iff (h : IsCell rgb cell) :
    cell.map Char.toUpper ∈ Color.all.map (·.hex.toList) ↔ IsLegal rgb := by
  constructor
  · intro hmem
    obtain ⟨c, hc, hhex⟩ := List.mem_map.mp hmem
    have hcell : IsCell c.toRgb cell := isCell_iff_hex.mpr hhex.symm
    rw [h.unique hcell]
    exact List.mem_map_of_mem hc
  · intro hlegal
    obtain ⟨c, hc, rfl⟩ := List.mem_map.mp hlegal
    rw [isCell_iff_hex.mp h]
    exact List.mem_map_of_mem hc

/-- A repainted cell is a cell of the color that is filled in. -/
theorem IsCell.repaint (h : IsCell rgb cell) :
    IsCell (rgb.settle fill).toRgb (repaintCell fill cell) := by
  unfold repaintCell Rgb.settle
  split
  · rename_i hmem
    obtain ⟨c, -, rfl⟩ := List.mem_map.mp (h.mem_hex_iff.mp hmem)
    rw [Color.ofRgb?_toRgb]
    exact h
  · rename_i hmem
    rw [h.mem_hex_iff, isLegal_iff, not_not] at hmem
    rw [hmem]
    exact isCell_hex fill

/-- A cell is repainted whatever follows it. -/
theorem IsCell.repaintCells_append (h : IsCell rgb cell) (text : List Char) :
    repaintCells fill (cell ++ text) = repaintCell fill cell ++ repaintCells fill text := by
  obtain ⟨r, r', g, g', b, b', rfl, -⟩ := h
  rfl

/-- Text without `#` holds no cell. -/
theorem repaintCells_append_of_not_mem {front : List Char} (h : '#' ∉ front) (text : List Char) :
    repaintCells fill (front ++ text) = front ++ repaintCells fill text := by
  induction front with
  | nil => rfl
  | cons c front ih =>
    rw [List.mem_cons, not_or] at h
    have hcons : repaintCells fill (c :: (front ++ text))
        = c :: repaintCells fill (front ++ text) := by
      -- The pattern of a cell does not match: it starts with `#`.
      rw [repaintCells]
      intro r r' g g' b b' rest hc
      exact absurd hc.symm h.1
    rw [List.cons_append, hcons, ih h.2, List.cons_append]

/-- It stays as it is. -/
theorem repaintCells_of_not_mem {text : List Char} (h : '#' ∉ text) :
    repaintCells fill text = text := by
  have happend := repaintCells_append_of_not_mem fill h []
  rwa [show repaintCells fill [] = [] from rfl, List.append_nil] at happend

end Cells

section Rows

variable (fill : Color) {cells : List Rgb} {line : List Char}

/-- Gaps hold none. -/
theorem IsGap.hash_not_mem {gap : List Char} (h : IsGap gap) : '#' ∉ gap := by
  intro hmem
  exact absurd (h '#' hmem) (by decide)

/-- What follows the cells is repainted on its own. -/
theorem AreFurther.repaintCells_append {further : List Char} (h : AreFurther cells further)
    (text : List Char) : repaintCells fill (further ++ text)
      = repaintCells fill further ++ repaintCells fill text := by
  induction h with
  | nil => rfl
  | cons blank _ first _ ih =>
    simp only [List.append_assoc, repaintCells_append_of_not_mem fill blank.hash_not_mem,
      first.repaintCells_append, ih]

/-- Repainted cells are cells, with the gaps that they had. -/
theorem AreFurther.repaint {further : List Char} (h : AreFurther cells further) :
    AreFurther (cells.map fun rgb => (rgb.settle fill).toRgb) (repaintCells fill further) := by
  induction h with
  | nil => exact .nil
  | cons blank nonempty first _ ih =>
    rw [repaintCells_append_of_not_mem fill blank.hash_not_mem, first.repaintCells_append,
      List.map_cons]
    exact .cons blank nonempty (first.repaint fill) ih

/-- What follows a row is repainted on its own too. -/
theorem IsRow.repaintCells_append (h : IsRow cells line) (text : List Char) :
    repaintCells fill (line ++ text) = repaintCells fill line ++ repaintCells fill text := by
  obtain ⟨blank, first, others, blank'⟩ := h
  simp only [List.append_assoc, repaintCells_append_of_not_mem fill blank.hash_not_mem,
    first.repaintCells_append, others.repaintCells_append,
    repaintCells_append_of_not_mem fill blank'.hash_not_mem,
    repaintCells_of_not_mem fill blank'.hash_not_mem]

/-- A repainted row is a row. -/
theorem IsRow.repaint (h : IsRow cells line) :
    IsRow (cells.map fun rgb => (rgb.settle fill).toRgb) (repaintCells fill line) := by
  obtain ⟨blank, first, others, blank'⟩ := h
  rw [repaintCells_append_of_not_mem fill blank.hash_not_mem, first.repaintCells_append,
    others.repaintCells_append, repaintCells_of_not_mem fill blank'.hash_not_mem, List.map_cons]
  exact .intro blank (first.repaint fill) (others.repaint fill) blank'

end Rows

section Lines

variable (fill : Color) {line : List Char}

/-- Carriage returns are white space, so they make no line visible. -/
theorem isSkipped_append_returns (line : List Char) (n : Nat) :
    isSkipped (line ++ List.replicate n '\r') = isSkipped line := by
  have hblank : (List.replicate n '\r').dropWhile Text.isWhiteSpace = [] := by
    rw [List.dropWhile_eq_nil_iff]
    intro c hc
    rw [List.eq_of_mem_replicate hc]
    decide
  unfold isSkipped
  rw [List.dropWhile_append, hblank]
  cases line.dropWhile Text.isWhiteSpace <;> rfl

/-- A row is a line to repaint. -/
theorem IsRow.repaintLine_eq {cells : List Rgb} (h : IsRow cells line) :
    repaintLine fill line = repaintCells fill line :=
  if_neg h.not_isSkipped

/-- Repainting a line keeps its end, and puts none inside it. -/
theorem repaintLine_piece {piece : List Char} (hstrip : piece.rdropWhile (· = '\r') = line)
    (hfeed : '\n' ∉ piece) (hline : IsSkipped line ∨ ∃ cells, IsRow cells line) :
    '\n' ∉ repaintLine fill piece ∧
      (repaintLine fill piece).rdropWhile (· = '\r') = repaintLine fill line := by
  obtain ⟨⟨n, rfl⟩, hlast⟩ := rdropWhile_eq_iff.mp hstrip
  rcases hline with hskipped | ⟨cells, hrow⟩
  · have hskipped := isSkipped_iff.mpr hskipped
    have hpiece : repaintLine fill (line ++ List.replicate n '\r')
        = line ++ List.replicate n '\r' := if_pos (by rw [isSkipped_append_returns, hskipped])
    rw [hpiece, repaintLine, if_pos hskipped]
    exact ⟨hfeed, hstrip⟩
  · have hreturns : '#' ∉ List.replicate n '\r' := fun hmem =>
      absurd (List.eq_of_mem_replicate hmem) (by decide)
    have hpiece : repaintLine fill (line ++ List.replicate n '\r')
        = repaintCells fill line ++ List.replicate n '\r' := by
      rw [repaintLine, isSkipped_append_returns, if_neg hrow.not_isSkipped,
        hrow.repaintCells_append, repaintCells_of_not_mem fill hreturns]
    -- A repainted row is plain text, with no line end in it.
    have hinLine : InLine (repaintCells fill line) := (hrow.repaint fill).isPlain.inLine
    rw [hpiece, hrow.repaintLine_eq]
    constructor
    · intro hmem
      rcases List.mem_append.mp hmem with hmem | hmem
      · exact (hinLine _ hmem).1 rfl
      · exact absurd (List.eq_of_mem_replicate hmem) (by decide)
    · rw [rdropWhile_eq_iff]
      exact ⟨⟨n, rfl⟩, fun hreturn => (hinLine _ (List.mem_of_getLast? hreturn)).2 rfl⟩

/-- The lines of a repainted text are the repainted lines. -/
theorem IsCut.repaint {text : String} {lines : List (List Char)} (h : IsCut text.toList lines)
    (hlines : ∀ line ∈ lines, IsSkipped line ∨ ∃ cells, IsRow cells line) :
    IsCut (repaint fill text).toList (lines.map (repaintLine fill)) := by
  obtain rfl := isCut_iff.mp h
  -- Repainting a piece and taking off its line end may change places.
  have hpiece : ∀ piece ∈ text.toList.splitOn '\n', '\n' ∉ repaintLine fill piece ∧
      (repaintLine fill piece).rdropWhile (· = '\r')
        = repaintLine fill (piece.rdropWhile (· = '\r')) := fun piece hmem =>
    repaintLine_piece fill rfl (not_mem_of_mem_splitOn hmem) (hlines _ (List.mem_map_of_mem hmem))
  have hpieces : (Piet.repaint fill text).toList.splitOn '\n'
      = (text.toList.splitOn '\n').map (repaintLine fill) := by
    rw [Piet.repaint, String.toList_ofList]
    refine List.splitOn_intercalate '\n' ?_ ?_
    · intro painted hpainted
      obtain ⟨piece, hmem, rfl⟩ := List.mem_map.mp hpainted
      exact (hpiece piece hmem).1
    · exact fun hnil => List.splitOn_ne_nil _ _ (List.map_eq_nil_iff.mp hnil)
  rw [isCut_iff, hpieces, List.map_map, List.map_map]
  exact List.map_congr_left fun piece hmem => (hpiece piece hmem).2

/-- The repainted lines are rows with the colors filled in. -/
theorem areRows_repaint {lines : List (List Char)} {screen : List (List Rgb)}
    (h : List.Forall₂ (fun line cells => IsRow cells line)
      (lines.filter fun line => !isSkipped line) screen) :
    AreRows (lines.map (repaintLine fill)) (screen.map (List.map (Rgb.settle fill))) := by
  induction lines generalizing screen with
  | nil =>
    cases h
    exact .nil
  | cons line lines ih =>
    by_cases hskipped : isSkipped line
    · -- A skipped line stays as it is, so it is skipped again.
      rw [List.filter_cons_of_neg (by simp [hskipped])] at h
      rw [List.map_cons, repaintLine, if_pos hskipped]
      exact .skip (isSkipped_iff.mp hskipped) (ih h)
    · rw [List.filter_cons_of_pos (by simpa using hskipped)] at h
      cases h with
      | cons first others =>
        refine .row ?_ (ih others)
        rw [List.map_map, first.repaintLine_eq]
        exact first.repaint fill

end Lines

/-- A lenient policy reads a well written source, and rejecting reads
the repainted source the same way. -/
theorem readRows_repaint {unknown : UnknownColors} {fill : Color} (h : unknown.fill? = some fill)
    {text : String} (htext : IsWellWritten text) :
    ∃ rows, readRows unknown text = .ok rows ∧ readRows .reject (repaint fill text) = .ok rows := by
  obtain ⟨lines, hcut, hlines⟩ := htext
  cases hscreen : readScreen text with
  | error error =>
    have hread : readRows unknown text = .error error := by
      rw [readRows_eq_map h, hscreen]
      rfl
    obtain ⟨before, line, after, hcut', -, ⟨hnot, hfaulty⟩, -⟩ := readRows_eq_error_iff.mp hread
    -- There is one way to cut the text, so the line is one of those that are well written.
    have hmem : line ∈ lines := by
      rw [← isCut_iff.mp hcut, isCut_iff.mp hcut']
      exact List.mem_append_right before List.mem_cons_self
    rcases hlines line hmem with hskipped | ⟨cells, hrow⟩
    · exact absurd hskipped hnot
    · exact absurd hrow (hfaulty.not_isRow h cells)
  | ok screen =>
    refine ⟨screen.map (List.map (Rgb.settle fill)), ?_, ?_⟩
    · rw [readRows_eq_map h, hscreen]
      rfl
    · have hrows := readScreen_eq_ok_iff.mp hscreen
      rw [filter_lines, isCut_iff.mp hcut] at hrows
      exact readRows_eq_ok_iff.mpr ⟨_, hcut.repaint fill hlines, areRows_repaint fill hrows⟩

/-! ### Policies compared -/

section Compare

variable {unknown unknown' : UnknownColors} {fill fill' : Color} {text : String}

/-- Lenient policies fail alike. -/
theorem readRows_eq_error_of_lenient (h : unknown.fill? = some fill)
    (h' : unknown'.fill? = some fill') {error : SourceError}
    (herror : readRows unknown text = .error error) : readRows unknown' text = .error error := by
  rw [readRows_eq_map h] at herror
  rw [readRows_eq_map h']
  cases hscreen : readScreen text with
  | error e =>
    rw [hscreen] at herror
    cases herror
    rfl
  | ok screen =>
    rw [hscreen] at herror
    cases herror

/-- The rows have the lengths that they have on the screen. -/
theorem lengths_of_lenient (h : unknown.fill? = some fill) {rows : List (List Color)}
    (hrows : readRows unknown text = .ok rows) :
    (readScreen text).map (List.map List.length) = .ok (rows.map List.length) := by
  rw [readRows_eq_map h] at hrows
  cases hscreen : readScreen text with
  | error e =>
    rw [hscreen] at hrows
    cases hrows
  | ok screen =>
    rw [hscreen] at hrows
    cases hrows
    simp [Except.map]

/-- Where all colors are legal, there is nothing to fill in. -/
theorem readRows_of_reject (h : unknown.fill? = some fill) {rows : List (List Color)}
    (hrows : readRows .reject text = .ok rows) : readRows unknown text = .ok rows := by
  rw [readRows_eq_map h, readRows_reject_eq_ok_iff.mp hrows]
  simp [Except.map, Function.comp_def, Rgb.settle_toRgb]

end Compare

/-- The policy matters at illegal colors only. On a source whose lines
are rows or skipped, a lenient policy does what rejecting does once the
illegal cells are rewritten in its color. On any source at all the
lenient policies give the same error, or rows of the same lengths; and
whatever rejecting reads, they read too. -/
theorem policy_matters_at_illegal_colors :
    (Color.white.hex = "#FFFFFF" ∧ Color.black.hex = "#000000") ∧
    (∀ text : String, IsWellWritten text →
      (∃ rows, readRows .asWhite text = .ok rows) ∧
      readRows .asWhite text = readRows .reject (repaint .white text) ∧
      (∃ rows, readRows .asBlack text = .ok rows) ∧
      readRows .asBlack text = readRows .reject (repaint .black text)) ∧
    (∀ (text : String) (error : SourceError),
      (readRows .asWhite text = .error error ↔ readRows .asBlack text = .error error) ∧
      (readRows .asWhite text = .error error → ∃ line column, error = .badCell line column)) ∧
    (∀ (text : String) (rows rows' : List (List Color)), readRows .asWhite text = .ok rows →
      readRows .asBlack text = .ok rows' → rows.map List.length = rows'.map List.length) ∧
    ∀ (text : String) (rows : List (List Color)), readRows .reject text = .ok rows →
      readRows .asWhite text = .ok rows ∧ readRows .asBlack text = .ok rows := by
  have hwhite : UnknownColors.asWhite.fill? = some .white := rfl
  have hblack : UnknownColors.asBlack.fill? = some .black := rfl
  refine ⟨by decide, ?_, ?_, ?_, ?_⟩
  · intro text htext
    obtain ⟨rows, hrows, hrepainted⟩ := readRows_repaint hwhite htext
    obtain ⟨rows', hrows', hrepainted'⟩ := readRows_repaint hblack htext
    exact ⟨⟨rows, hrows⟩, hrows.trans hrepainted.symm,
      ⟨rows', hrows'⟩, hrows'.trans hrepainted'.symm⟩
  · intro text error
    exact ⟨⟨readRows_eq_error_of_lenient hwhite hblack, readRows_eq_error_of_lenient hblack hwhite⟩,
      exists_badCell hwhite⟩
  · intro text rows rows' hrows hrows'
    have hlengths := lengths_of_lenient hwhite hrows
    exact Except.ok.inj (hlengths.symm.trans (lengths_of_lenient hblack hrows'))
  · intro text rows hrows
    exact ⟨readRows_of_reject hwhite hrows, readRows_of_reject hblack hrows⟩

/-- A comment, and a row with an illegal color. -/
theorem policy_matters_at_one_color :
    IsWellWritten "; #123456\n#fF0000 #123456\r\n" ∧
    (∃ rows rows', readRows .asWhite "; #123456\n#fF0000 #123456\r\n" = .ok rows ∧
      readRows .asBlack "; #123456\n#fF0000 #123456\r\n" = .ok rows' ∧
      rows.map List.length = rows'.map List.length ∧
      readRows .reject "; #123456\n#fF0000 #FFFFFF\r\n" = .ok rows ∧
      readRows .asBlack "; #123456\n#fF0000 #FFFFFF\r\n" = .ok rows) ∧
    readRows .asBlack "#12345" = .error (.badCell 1 6) := by
  have hcell : IsCell ⟨0xFF, 0, 0⟩ "#fF0000".toList := isCell_iff_hex.mpr rfl
  have hcell' : IsCell ⟨0x12, 0x34, 0x56⟩ "#123456".toList := isCell_iff_hex.mpr rfl
  have hgap : IsGap [' '] := by simp [IsGap]
  have hrow : IsRow [⟨0xFF, 0, 0⟩, ⟨0x12, 0x34, 0x56⟩] "#fF0000 #123456".toList :=
    .intro isGap_nil hcell (.cons hgap (by simp) hcell' .nil) isGap_nil
  have htext : IsWellWritten "; #123456\n#fF0000 #123456\r\n" := by
    refine ⟨["; #123456".toList, "#fF0000 #123456".toList, []], isCut_iff.mpr (by decide), ?_⟩
    simp only [List.forall_mem_cons, List.not_mem_nil, false_imp_iff, implies_true, and_true]
    exact ⟨Or.inl (isSkipped_iff.mp (by decide)), Or.inr ⟨_, hrow⟩, Or.inl (isSkipped_iff.mp rfl)⟩
  obtain ⟨-, hwritten, herrors, hlengths, hlegal⟩ := policy_matters_at_illegal_colors
  obtain ⟨⟨rows, hrows⟩, hwhite, ⟨rows', hrows'⟩, -⟩ := hwritten _ htext
  have hrepaint : repaint .white "; #123456\n#fF0000 #123456\r\n"
      = "; #123456\n#fF0000 #FFFFFF\r\n" := by decide
  have hreject : readRows .reject "; #123456\n#fF0000 #FFFFFF\r\n" = .ok rows := by
    rw [← hrepaint, ← hwhite, hrows]
  exact ⟨htext, ⟨rows, rows', hrows, hrows', hlengths _ _ _ hrows hrows', hreject,
    (hlegal _ _ hreject).2⟩, (herrors _ _).1.mp rfl⟩

end EsoHost.Piet
