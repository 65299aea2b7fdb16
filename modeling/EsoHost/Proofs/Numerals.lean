import Mathlib.Data.List.Induction
import Mathlib.Data.Nat.Digits.Defs
import EsoHost.Piet.Machine
import EsoHost.Proofs.Record

/-!
# `EsoHost.Proofs.Numerals`: numbers are read as they are written

`readNumber` looks at characters. This module says what it makes of a
record that is written as a sequence of numerals.

* A `Numeral` is an optional sign and one or more digits. Its value is
  exact, of any size, and leading zeros do not count.
* Blanks are white space and NUL (`IsBlank`). Numerals stand in a record
  with blanks behind each (`spread`), at least one between two of them
  (`Spaced`).
* `readNumber_text`: a read takes the blanks before a numeral and the
  numeral, and nothing else, also where the value fits no word. So the
  next read starts in the right place.
* `reads_spread`: hence a sequence of reads goes through the numerals
  one by one, and then finds nothing.

What printing a number writes is a numeral (`exists_numeral`). So the
words that one program prints on lines of their own are the words that
another program reads.
-/

set_option autoImplicit false

namespace EsoHost

/-! ### Numerals -/

/-- A sign in front of digits. -/
inductive Sign where
  | plus | minus
  deriving DecidableEq, Repr

/-- A sign as it is written. -/
def Sign.char : Sign → Char
  | plus => '+'
  | minus => '-'

/-- A decimal numeral: a sign or none, then digits, the first counting
most. -/
structure Numeral where
  sign : Option Sign
  digits : List (Fin 10)
  digits_ne_nil : digits ≠ []

namespace Numeral

/-- The digits as they are written. -/
def digitText (n : Numeral) : List Char := n.digits.map fun d => d.val.digitChar

/-- A numeral as it is written. -/
def text (n : Numeral) : List Char := n.sign.toList.map Sign.char ++ n.digitText

/-- The number that the digits spell. -/
def magnitude (n : Numeral) : Nat := Nat.ofDigits 10 (n.digits.reverse.map Fin.val)

/-- The number for which a numeral stands. -/
def value (n : Numeral) : Int := if n.sign = some .minus then -n.magnitude else n.magnitude

end Numeral

/-- The text consists of white space and NUL. -/
def IsBlank (text : List Char) : Prop := ∀ c ∈ text, Text.isWhiteSpace c ∨ c = '\x00'

instance (text : List Char) : Decidable (IsBlank text) :=
  List.decidableBAll (fun c => Text.isWhiteSpace c ∨ c = '\x00') text

/-- What reading a number with this value gives: the word that has the
value, if there is one. -/
inductive Gives (value : Int) : Reading Int64 → Prop where
  | word {w : Int64} (exact : w.toInt = value) : Gives value (.ready w)
  | tooLarge (range : value < -2 ^ 63 ∨ 2 ^ 63 ≤ value) : Gives value .malformed

/-- What is blank is skipped before a number. -/
theorem IsBlank.isFiller {blank : List Char} (h : IsBlank blank) : ∀ c ∈ blank, isFiller c := by
  intro c hc
  simpa [EsoHost.isFiller] using h c hc

/-- A blank is no digit. -/
theorem isDigit_eq_false_of_isFiller {c : Char} (h : isFiller c) : c.isDigit = false := by
  rw [Bool.eq_false_iff, ne_eq, Char.isDigit_iff_toNat]
  -- Digits have the code points 48 to 57, and no run of white space
  -- reaches into these.
  have hzero : ('0' : Char).toNat = 48 := rfl
  have hnine : ('9' : Char).toNat = 57 := rfl
  rcases Bool.or_eq_true_iff.mp h with hspace | hnul
  · simp [Text.isWhiteSpace, Text.whiteSpaceRuns] at hspace
    omega
  · rw [of_decide_eq_true hnul]
    decide

/-! ### Reading one numeral -/

/-- A word is given where the value fits one. -/
theorem gives_numeralReading (negative : Bool) (digits : List Char) :
    Gives (Text.signedValue negative digits) (numeralReading negative digits) := by
  generalize hvalue : Text.signedValue negative digits = value
  have hmin : Int64.minValue.toInt = -2 ^ 63 := rfl
  have hmax : Int64.maxValue.toInt = 2 ^ 63 - 1 := rfl
  rw [numeralReading, hvalue, Text.wordOf?, hmin, hmax]
  -- The bounds of a word are those of `wordOf?`, both included.
  by_cases hfits : -2 ^ 63 ≤ value ∧ value ≤ 2 ^ 63 - 1
  · rw [if_pos hfits]
    exact .word (Int64.toInt_ofInt_of_le hfits.1 (by omega))
  · rw [if_neg hfits]
    exact .tooLarge (by omega)

namespace Numeral

/-- A numeral is written in digits after its sign. -/
theorem isDigit_of_mem_digitText {n : Numeral} {c : Char} (h : c ∈ n.digitText) : c.isDigit := by
  have hdigit : ∀ d : Fin 10, d.val.digitChar.isDigit := by decide
  obtain ⟨d, -, rfl⟩ := List.mem_map.mp h
  exact hdigit d

/-- At least one of them. -/
theorem digitText_ne_nil (n : Numeral) : n.digitText ≠ [] :=
  fun h => n.digits_ne_nil (List.map_eq_nil_iff.mp h)

/-- Reading digit by digit adds up the places of the digits. -/
theorem digitsValue_digitText (n : Numeral) : Text.digitsValue n.digitText = n.magnitude := by
  show Nat.ofDigitChars 10 (n.digits.map fun d => d.val.digitChar) 0
    = Nat.ofDigits 10 (n.digits.reverse.map Fin.val)
  -- The last digit is the one that both sides take apart in one step.
  induction n.digits using List.reverseRecOn with
  | nil => rfl
  | append_singleton digits d ih =>
    rw [List.map_append, Nat.ofDigitChars_append, ih, List.reverse_append, List.map_append,
      List.reverse_singleton, List.map_singleton, List.map_singleton, List.singleton_append,
      Nat.ofDigits_cons, Nat.ofDigitChars_cons_digitChar_of_lt_ten d.isLt, Nat.ofDigitChars_nil,
      Nat.add_comm]

/-- Sign and digits together give the value of a numeral. -/
theorem signedValue_digitText (n : Numeral) :
    Text.signedValue (n.sign = some .minus) n.digitText = n.value := by
  simp only [Text.signedValue, digitsValue_digitText, value, decide_eq_true_eq]

/-- Before the digits of a numeral there is its sign or nothing, and
neither is a blank. -/
theorem text_append_cases (n : Numeral) (rest : List Char) :
    ∃ first tail, n.text ++ rest = first :: tail ∧ ¬ isFiller first ∧
      numeralBody first tail = n.digitText ++ rest ∧ (first = '-' ↔ n.sign = some .minus) := by
  obtain ⟨first, tail, hdigits⟩ := List.exists_cons_of_ne_nil n.digitText_ne_nil
  cases hsign : n.sign with
  | none =>
    have hdigit : first.isDigit :=
      isDigit_of_mem_digitText (hdigits ▸ List.mem_cons_self : first ∈ n.digitText)
    -- A digit is no sign.
    have hminus : first ≠ '-' := by
      rintro rfl
      exact absurd hdigit (by decide)
    have hplus : first ≠ '+' := by
      rintro rfl
      exact absurd hdigit (by decide)
    refine ⟨first, tail ++ rest, ?_, ?_, ?_, by simp [hminus]⟩
    · simp [text, hsign, hdigits]
    · intro hfiller
      rw [isDigit_eq_false_of_isFiller hfiller] at hdigit
      cases hdigit
    · rw [numeralBody_of_no_sign (by simp [hminus, hplus]), hdigits, List.cons_append]
  | some sign =>
    refine ⟨sign.char, n.digitText ++ rest, by simp [text, hsign], ?_, ?_, ?_⟩
    · cases sign <;> decide
    · refine numeralBody_of_sign ?_
      cases sign <;> decide
    · cases sign <;> decide

/-- A read takes the blanks before a numeral and the numeral itself, and
gives its value. -/
theorem readNumber_text (n : Numeral) {blank rest : List Char} (hblank : IsBlank blank)
    (hrest : ∀ c ∈ rest.head?, isFiller c) :
    Gives n.value (readNumber (blank ++ (n.text ++ rest))).1 ∧
      (readNumber (blank ++ (n.text ++ rest))).2 = rest := by
  obtain ⟨first, tail, htext, hfirst, hbody, hminus⟩ := n.text_append_cases rest
  -- The digits end where the numeral does: a blank follows, or nothing.
  have hstop : rest.takeWhile Char.isDigit = [] ∧ rest.dropWhile Char.isDigit = rest := by
    cases rest with
    | nil => exact ⟨rfl, rfl⟩
    | cons c rest =>
      have hc := isDigit_eq_false_of_isFiller (hrest c rfl)
      exact ⟨List.takeWhile_cons_of_neg (by simp [hc]), List.dropWhile_cons_of_neg (by simp [hc])⟩
  have hdigit : ∀ c ∈ n.digitText, c.isDigit := fun c => isDigit_of_mem_digitText
  have htake : (numeralBody first tail).takeWhile Char.isDigit = n.digitText := by
    rw [hbody, List.takeWhile_append_of_pos hdigit, hstop.1, List.append_nil]
  have hdrop : (numeralBody first tail).dropWhile Char.isDigit = rest := by
    rw [hbody, List.dropWhile_append_of_pos hdigit, hstop.2]
  have hsign : decide (first = '-') = decide (n.sign = some .minus) := decide_eq_decide.mpr hminus
  -- The blanks go first. The rest starts with a sign or a digit, which
  -- tells how to read on.
  rw [readNumber_append_of_fillers hblank.isFiller, htext,
    readNumber_of_digits hfirst (htake ▸ n.digitText_ne_nil), htake, hdrop, hsign,
    ← signedValue_digitText]
  exact ⟨gives_numeralReading _ _, rfl⟩

end Numeral

/-! ### Reading numerals one by one -/

/-- Numerals one after the other, each with the blanks behind it. -/
def spread (entries : List (Numeral × List Char)) : List Char :=
  entries.flatMap fun e => e.1.text ++ e.2

/-- Only blanks stand behind the numerals, and at least one between
two. -/
def Spaced : List (Numeral × List Char) → Prop
  | [] => True
  | e :: others => IsBlank e.2 ∧ (others ≠ [] → e.2 ≠ []) ∧ Spaced others

namespace Transcript

/-- Reading numbers goes through the numerals. Each read gives the value
of one of them and leaves what stands behind it; the read after the last
finds nothing. -/
def ReadsThrough (t : Transcript) : List (Numeral × List Char) → Prop
  | [] => t.readNumber = (.exhausted, { t with unread := [] })
  | e :: others =>
    Gives e.1.value t.readNumber.1 ∧
      t.readNumber.2 = { t with unread := e.2 ++ spread others } ∧
      t.readNumber.2.ReadsThrough others

/-- Reading numbers gives these readings, and then finds nothing. -/
def Yields (t : Transcript) : List (Reading Int64) → Prop
  | [] => t.readNumber.1 = .exhausted
  | reading :: others => t.readNumber.1 = reading ∧ t.readNumber.2.Yields others

end Transcript

/-- Behind a numeral there comes a blank, or nothing. -/
theorem Spaced.isFiller_head {e : Numeral × List Char} {others : List (Numeral × List Char)}
    (h : Spaced (e :: others)) : ∀ c ∈ (e.2 ++ spread others).head?, isFiller c := by
  obtain ⟨hblank, hapart, -⟩ := h
  intro c hc
  -- There is no blank behind the last numeral only, and nothing comes
  -- after that one.
  cases hgap : e.2 with
  | nil =>
    have hlast : others = [] := by
      by_contra hne
      exact hapart hne hgap
    rw [hgap, hlast] at hc
    cases hc
  | cons first gap =>
    rw [hgap] at hc
    obtain rfl : first = c := Option.some.inj hc
    exact hblank.isFiller first (hgap ▸ List.mem_cons_self)

/-- The record is read numeral by numeral. -/
theorem reads_spread {t : Transcript} {before : List Char}
    {entries : List (Numeral × List Char)} (hbefore : IsBlank before) (hspaced : Spaced entries)
    (hunread : t.unread = before ++ spread entries) : t.ReadsThrough entries := by
  -- `before` is kept free: after a read it is the blanks behind the
  -- numeral that was read.
  induction entries generalizing t before with
  | nil =>
    have hfillers : ∀ c ∈ t.unread, isFiller c := by
      rw [hunread, show spread [] = [] from rfl, List.append_nil]
      exact hbefore.isFiller
    simp only [Transcript.ReadsThrough, Transcript.readNumber, readNumber_of_fillers hfillers]
  | cons e others ih =>
    have hrecord : t.unread = before ++ (e.1.text ++ (e.2 ++ spread others)) := by
      rw [hunread, show spread (e :: others) = e.1.text ++ e.2 ++ spread others from rfl,
        List.append_assoc]
    obtain ⟨hgives, hleft⟩ := e.1.readNumber_text hbefore hspaced.isFiller_head
    rw [← hrecord] at hgives hleft
    have hafter : t.readNumber.2 = { t with unread := e.2 ++ spread others } := by
      rw [← hleft]
      rfl
    exact ⟨hgives, hafter, ih hspaced.1 hspaced.2.2 (by rw [hafter])⟩

/-! ### Printed numbers -/

/-- The text of a word that is printed as a number. -/
def numberText (w : Int64) : String := toString w.toInt

/-- Characters that are digits can be written as digits. -/
theorem exists_digits {text : List Char} (h : ∀ c ∈ text, c.isDigit) :
    ∃ digits : List (Fin 10), digits.map (fun d => d.val.digitChar) = text := by
  induction text with
  | nil => exact ⟨[], rfl⟩
  | cons c text ih =>
    -- A digit lies as far behind `0` as its value says.
    obtain ⟨digits, hdigits⟩ := ih fun d hd => h d (List.mem_cons_of_mem c hd)
    have hcode : ∀ d : Fin 10, d.val.digitChar.toNat = 48 + d.val := by decide
    have hrange : 48 ≤ c.toNat ∧ c.toNat ≤ 57 := Char.isDigit_iff_toNat.mp (h c List.mem_cons_self)
    refine ⟨⟨c.toNat - 48, by omega⟩ :: digits, ?_⟩
    rw [List.map_cons, hdigits, List.cons.injEq]
    refine ⟨Char.toNat_inj.mp ?_, rfl⟩
    rw [hcode]
    exact Nat.add_sub_of_le hrange.1

/-- Any digits under any sign are those of a numeral. -/
theorem exists_numeral_of_nat (sign : Option Sign) (m : Nat) :
    ∃ n : Numeral, n.sign = sign ∧ n.digitText = Nat.toDigits 10 m ∧ n.magnitude = m := by
  have hisDigit : ∀ c ∈ Nat.toDigits 10 m, c.isDigit := fun c =>
    Nat.isDigit_of_mem_toDigits (by decide) (by decide)
  obtain ⟨digits, hdigits⟩ := exists_digits hisDigit
  have hne : digits ≠ [] := by
    rintro rfl
    exact Nat.toDigits_ne_nil hdigits.symm
  refine ⟨⟨sign, digits, hne⟩, rfl, hdigits, ?_⟩
  rw [← Numeral.digitsValue_digitText, show Numeral.digitText ⟨sign, digits, hne⟩ = _ from hdigits]
  exact Nat.ofDigitChars_ten_toDigits

/-- A printed number is a numeral with its value. -/
theorem exists_numeral (z : Int) :
    ∃ n : Numeral, n.text = (toString z).toList ∧ n.value = z := by
  rw [Int.toString_eq_repr, Int.repr_eq_if]
  split
  · obtain ⟨n, hsign, htext, hmagnitude⟩ := exists_numeral_of_nat none z.toNat
    refine ⟨n, by simp [Numeral.text, hsign, htext], ?_⟩
    simp only [Numeral.value, hsign, hmagnitude]
    simp
    omega
  · obtain ⟨n, hsign, htext, hmagnitude⟩ := exists_numeral_of_nat (some .minus) (-z).toNat
    refine ⟨n, by simp [Numeral.text, hsign, htext, Sign.char], ?_⟩
    simp only [Numeral.value, hsign, hmagnitude]
    simp
    omega

/-- Printed words, on lines of their own, are numerals with their
values. -/
theorem exists_spread_lines {ending : List Char} (hending : IsBlank ending) (w : Int64)
    (ws : List Int64) :
    ∃ entries, Spaced entries ∧
      spread entries = ("\n".intercalate ((w :: ws).map numberText)).toList ++ ending ∧
      entries.map (fun e => e.1.value) = (w :: ws).map Int64.toInt := by
  -- The last word has `ending` behind it, and any other a line feed.
  induction ws generalizing w with
  | nil =>
    obtain ⟨n, htext, hvalue⟩ := exists_numeral w.toInt
    refine ⟨[(n, ending)], ⟨hending, fun h => absurd rfl h, trivial⟩, ?_, by simp [hvalue]⟩
    simp [spread, htext, numberText]
  | cons w' ws ih =>
    obtain ⟨n, htext, hvalue⟩ := exists_numeral w.toInt
    obtain ⟨entries, hspaced, hspread, hvalues⟩ := ih w'
    have hfeed : IsBlank ['\n'] := by decide
    refine ⟨(n, ['\n']) :: entries, ⟨hfeed, fun _ => List.cons_ne_nil _ _, hspaced⟩, ?_,
      by simp [hvalue, hvalues]⟩
    have hcons : spread ((n, ['\n']) :: entries) = n.text ++ ['\n'] ++ spread entries := rfl
    rw [hcons, hspread, htext]
    simp [numberText, String.intercalate_cons_cons]

/-- The value of a word is read as that word. -/
theorem Gives.eq_ready {w : Int64} {reading : Reading Int64} (h : Gives w.toInt reading) :
    reading = .ready w := by
  have hge := w.le_toInt
  have hlt := w.toInt_lt
  cases h with
  | word exact => rw [Int64.toInt_inj.mp exact]
  | tooLarge range => omega

namespace Transcript

variable {t : Transcript}

/-- Where all values are words, these are what the reads give. -/
theorem ReadsThrough.yields {entries : List (Numeral × List Char)} {ws : List Int64}
    (h : t.ReadsThrough entries)
    (hvalues : entries.map (fun e => e.1.value) = ws.map Int64.toInt) :
    t.Yields (ws.map .ready) := by
  induction entries generalizing t ws with
  | nil =>
    obtain rfl : ws = [] := List.map_eq_nil_iff.mp hvalues.symm
    exact congrArg Prod.fst h
  | cons e others ih =>
    cases ws with
    | nil => cases hvalues
    | cons w ws =>
      obtain ⟨hvalue, hvalues⟩ := List.cons.inj hvalues
      obtain ⟨hgives, -, hothers⟩ := h
      rw [show e.1.value = w.toInt from hvalue] at hgives
      exact ⟨hgives.eq_ready, ih hothers hvalues⟩

/-- Printed words, one on each line, are read back. -/
theorem yields_lines {ws : List Int64} {ending : List Char} (hending : IsBlank ending)
    (hunread : t.unread = ("\n".intercalate (ws.map numberText)).toList ++ ending) :
    t.Yields (ws.map .ready) := by
  cases ws with
  | nil =>
    have hrecord : t.unread = ending ++ spread [] := by
      rw [hunread]
      exact (List.append_nil ending).symm
    have hreads : t.ReadsThrough [] := reads_spread hending trivial hrecord
    exact hreads.yields rfl
  | cons w ws =>
    obtain ⟨entries, hspaced, hspread, hvalues⟩ := exists_spread_lines hending w ws
    have hrecord : t.unread = [] ++ spread entries := hunread.trans hspread.symm
    exact (reads_spread (by decide) hspaced hrecord).yields hvalues

/-- A user may type the words that a program has printed. In a staged
run NUL comes in place of the last line feed. -/
theorem yields_type (t : Transcript) (ws : List Int64) :
    (t.type ("\n".intercalate (ws.map numberText) ++ "\n")).1 = .accepted ∧
      (t.type ("\n".intercalate (ws.map numberText) ++ "\n")).2.Yields (ws.map .ready) := by
  have hline : ("\n".intercalate (ws.map numberText) ++ "\n").toList
      = ("\n".intercalate (ws.map numberText)).toList ++ ['\n'] := String.toList_append
  have hended : ("\n".intercalate (ws.map numberText) ++ "\n").toList.getLast? = some '\n' := by
    rw [hline, List.getLast?_concat]
  obtain ⟨haccepted, -, hunread⟩ := t.type_of_ended hended
  rw [hline, List.dropLast_concat] at hunread
  refine ⟨haccepted, ?_⟩
  -- Either ending is blank, a line feed as well as NUL.
  split at hunread
  · exact yields_lines (by decide) hunread
  · exact yields_lines (by decide) hunread

end Transcript

/-- Numerals in a record, with blanks around them and at least one
between two, are read one by one. Each read gives the exact value of its
numeral, or is malformed if no word has that value; either way it takes
the blanks before the numeral and the numeral, and nothing else; and
after the last numeral nothing is found. Printing a number writes such a
numeral, so words printed on lines of their own read back. -/
theorem numerals_read_back :
    (∀ (t : Transcript) (before : List Char) (entries : List (Numeral × List Char)),
      IsBlank before → Spaced entries → t.unread = before ++ spread entries →
        t.ReadsThrough entries) ∧
    (∀ (policy : Piet.ExhaustedInput) (value : Nat) (f : Piet.Frame),
      (Piet.execute policy value f .outNumber).2.transcript
        = f.transcript.print (numberText f.stack.pop.1)) ∧
    (∀ (t : Transcript) (ws : List Int64) (ending : List Char), IsBlank ending →
      t.unread = ("\n".intercalate (ws.map numberText)).toList ++ ending →
        t.Yields (ws.map .ready)) ∧
    ∀ (t : Transcript) (ws : List Int64),
      (t.type ("\n".intercalate (ws.map numberText) ++ "\n")).1 = .accepted ∧
        (t.type ("\n".intercalate (ws.map numberText) ++ "\n")).2.Yields (ws.map .ready) := by
  refine ⟨?_, ?_, ?_, Transcript.yields_type⟩
  · intro t before entries hbefore hspaced hunread
    exact reads_spread hbefore hspaced hunread
  · intro policy value f
    rfl
  · intro t ws ending hending hunread
    exact Transcript.yields_lines hending hunread

/-- A signed numeral with leading zeros, one of twenty digits, and a
third at the very end. -/
def unevenEntries : List (Numeral × List Char) :=
  [(⟨some .plus, [0, 0, 7], List.cons_ne_nil _ _⟩, ['\u3000', '\x00']),
    (⟨some .minus, 9 :: List.replicate 19 0, List.cons_ne_nil _ _⟩, ['\n']),
    (⟨none, [0], List.cons_ne_nil _ _⟩, [])]

/-- They are read as they are, and so are two printed words of which the
first is the least there is. -/
theorem uneven_numerals_read_back :
    IsBlank [' '] ∧ Spaced unevenEntries ∧
    (Transcript.mk .staged "" (' ' :: spread unevenEntries) false).ReadsThrough unevenEntries ∧
    (Transcript.mk .staged "" "-9223372036854775808\n7\x00".toList false).Yields
      [.ready Int64.minValue, .ready 7] := by
  obtain ⟨hentries, -, hlines, -⟩ := numerals_read_back
  have hspace : IsBlank [' '] := by decide
  have hspaced : Spaced unevenEntries :=
    ⟨by decide, by simp, by decide, by simp, by decide, fun h => absurd rfl h, trivial⟩
  exact ⟨hspace, hspaced, hentries _ [' '] _ hspace hspaced rfl,
    hlines _ [Int64.minValue, 7] ['\x00'] (by decide) rfl⟩

end EsoHost
