import Mathlib.Data.List.Basic
import EsoHost.Proofs.Transcript

/-!
# `EsoHost.Proofs.Record`: every record is read once

A program and its user take turns on a transcript in any order: the
program reads and prints, the user offers texts (`Use`). A transcript
keeps only what is left to read. To say that nothing is lost and
nothing comes twice, an `Account` is kept beside it, from what the uses
show: which record was accepted last, and which of its characters the
reads since then have taken.

* `readNumber_takes`: reading a number takes a piece from the front of
  the record, and the piece alone decides what is read.
* `offer_cases`: the three things that can become of an offered text.
* `Account.Balanced`: what was taken and what is left make up the
  record. `Account.Balanced.note` is the step lemma, and
  `Account.balanced_after` says it of any sequence of uses.
* `kept_after_uses`: all that a transcript promises its two sides.
-/

set_option autoImplicit false

namespace EsoHost

/-! ### Reading a number -/

/-- What is left of a numeral after its sign, if it has one. -/
def numeralBody (first : Char) (tail : List Char) : List Char :=
  if first = '-' ∨ first = '+' then tail else first :: tail

/-- What digits under a sign read as. -/
def numeralReading (negative : Bool) (digits : List Char) : Reading Int64 :=
  match Text.wordOf? (Text.signedValue negative digits) with
  | some n => .ready n
  | none => .malformed

section ReadNumber

variable {first : Char} {tail : List Char}

/-- Blanks before a number make no difference to it. -/
theorem readNumber_append_of_fillers {blanks : List Char} (h : ∀ c ∈ blanks, isFiller c)
    (text : List Char) : readNumber (blanks ++ text) = readNumber text := by
  simp only [readNumber, List.dropWhile_append_of_pos h]

/-- Where no digit comes, one character is used up: the sign, or the
character that starts no number. -/
theorem readNumber_of_no_digits (hfirst : ¬ isFiller first)
    (hdigits : (numeralBody first tail).takeWhile Char.isDigit = []) :
    readNumber (first :: tail) = (.malformed, tail) := by
  rw [numeralBody] at hdigits
  simp only [readNumber, List.dropWhile_cons_of_neg hfirst, hdigits, if_true]

/-- Where digits come, all of them are used up. -/
theorem readNumber_of_digits (hfirst : ¬ isFiller first)
    (hdigits : (numeralBody first tail).takeWhile Char.isDigit ≠ []) :
    readNumber (first :: tail)
      = (numeralReading (first = '-') ((numeralBody first tail).takeWhile Char.isDigit),
        (numeralBody first tail).dropWhile Char.isDigit) := by
  simp only [numeralBody] at hdigits ⊢
  simp only [readNumber, List.dropWhile_cons_of_neg hfirst, if_neg hdigits, numeralReading]
  generalize Text.wordOf? _ = word
  cases word <;> rfl

/-- A sign is not part of the body. -/
theorem numeralBody_of_sign (h : first = '-' ∨ first = '+') : numeralBody first tail = tail :=
  if_pos h

/-- Any other character is. -/
theorem numeralBody_of_no_sign (h : ¬ (first = '-' ∨ first = '+')) :
    numeralBody first tail = first :: tail :=
  if_neg h

/-- A numeral ends where its digits end. -/
theorem exists_numeralBody_eq (h : (numeralBody first tail).takeWhile Char.isDigit ≠ []) :
    ∃ digits, numeralBody first digits = (numeralBody first tail).takeWhile Char.isDigit ∧
      digits ++ (numeralBody first tail).dropWhile Char.isDigit = tail := by
  by_cases hsign : first = '-' ∨ first = '+'
  · simp only [numeralBody_of_sign hsign]
    exact ⟨_, rfl, List.takeWhile_append_dropWhile⟩
  · simp only [numeralBody_of_no_sign hsign] at h ⊢
    have hfirst : first.isDigit := by
      by_contra hnot
      exact h (List.takeWhile_cons_of_neg hnot)
    refine ⟨tail.takeWhile Char.isDigit, (List.takeWhile_cons_of_pos hfirst).symm, ?_⟩
    rw [List.dropWhile_cons_of_pos hfirst, List.takeWhile_append_dropWhile]

end ReadNumber

/-- Reading a number takes a piece from the front of the record. The
piece is not empty unless nothing was found, and a record that holds
nothing else reads the same. -/
theorem readNumber_takes (record : List Char) :
    ∃ taken, taken ++ (readNumber record).2 = record ∧
      readNumber taken = ((readNumber record).1, []) ∧
      ((readNumber record).1 ≠ .exhausted → taken ≠ []) := by
  have hblanks : ∀ c ∈ record.takeWhile isFiller, isFiller c := fun c => List.mem_takeWhile_imp
  have hsplit : record = record.takeWhile isFiller ++ record.dropWhile isFiller :=
    List.takeWhile_append_dropWhile.symm
  have hread : readNumber record = readNumber (record.dropWhile isFiller) := by
    rw [hsplit, readNumber_append_of_fillers hblanks, ← hsplit]
  -- It is enough to look at the record after its blanks.
  suffices hrest : ∃ taken, taken ++ (readNumber record).2 = record.dropWhile isFiller ∧
      readNumber taken = ((readNumber record).1, []) ∧
      ((readNumber record).1 ≠ .exhausted → taken ≠ []) by
    obtain ⟨taken, happend, htaken, hne⟩ := hrest
    refine ⟨record.takeWhile isFiller ++ taken, ?_, ?_, ?_⟩
    · rw [List.append_assoc, happend, List.takeWhile_append_dropWhile]
    · rw [readNumber_append_of_fillers hblanks, htaken]
    · intro hfound
      exact List.append_ne_nil_of_right_ne_nil _ (hne hfound)
  rw [hread]
  cases hdrop : record.dropWhile isFiller with
  | nil => exact ⟨[], rfl, rfl, fun h => absurd rfl h⟩
  | cons first tail =>
    have hfirst : ¬ isFiller first := by
      have := List.head?_dropWhile_not isFiller record
      simpa [hdrop] using this
    -- Without a digit the piece is one character, with digits it ends with
    -- them.
    by_cases hdigits : (numeralBody first tail).takeWhile Char.isDigit = []
    · rw [readNumber_of_no_digits hfirst hdigits]
      refine ⟨[first], rfl, readNumber_of_no_digits hfirst ?_, by simp⟩
      by_cases hsign : first = '-' ∨ first = '+'
      · rw [numeralBody_of_sign hsign, List.takeWhile_nil]
      · rw [numeralBody_of_no_sign hsign] at hdigits ⊢
        have hnot : ¬ first.isDigit := by
          intro hdigit
          simp [hdigit] at hdigits
        exact List.takeWhile_cons_of_neg hnot
    · obtain ⟨digits, hbody, hrest⟩ := exists_numeralBody_eq hdigits
      rw [readNumber_of_digits hfirst hdigits]
      refine ⟨first :: digits, by rw [List.cons_append, hrest], ?_, by simp⟩
      -- Its own digits are all that the piece holds after its sign.
      have hall : ∀ c ∈ numeralBody first digits, c.isDigit := by
        intro c hc
        rw [hbody] at hc
        exact List.mem_takeWhile_imp hc
      rw [readNumber_of_digits hfirst] <;>
        rw [List.takeWhile_eq_self_iff.mpr hall, hbody]
      · rw [← hbody, List.dropWhile_eq_nil_iff.mpr hall]
      · exact hdigits

/-! ### Offers -/

namespace Transcript

/-- The text has all of the transcript at its front, and more after
it. -/
def ExtendedBy (t : Transcript) (text : String) : Prop :=
  t.contents.toList <+: text.toList ∧ t.contents ≠ text

/-- To extend a transcript is to add something at its end. -/
theorem extendedBy_iff {t : Transcript} {text : String} :
    t.ExtendedBy text ↔ ∃ added, added ≠ [] ∧ t.contents.toList ++ added = text.toList := by
  constructor
  · rintro ⟨⟨added, happend⟩, hne⟩
    refine ⟨added, ?_, happend⟩
    rintro rfl
    rw [List.append_nil] at happend
    exact hne (String.toList_injective happend)
  · rintro ⟨added, hne, happend⟩
    refine ⟨⟨added, happend⟩, ?_⟩
    rintro rfl
    exact hne (List.append_right_eq_self.mp happend)

/-- What becomes of an offered text. A text that does not extend the
transcript or does not end in a line feed changes nothing. What an
accepted text adds is the new record, except that the first record of a
staged transcript ends in NUL. -/
theorem offer_cases (t : Transcript) (text : String) :
    (¬ t.ExtendedBy text ∧ t.offer text = (.rejected, t)) ∨
    (t.ExtendedBy text ∧ text.toList.getLast? ≠ some '\n' ∧ t.offer text = (.pending, t)) ∨
    (t.ExtendedBy text ∧ text.toList.getLast? = some '\n' ∧ (t.offer text).1 = .accepted ∧
      (t.offer text).2.mode = t.mode ∧ (t.offer text).2.opening = false ∧
      ∃ added, t.contents.toList ++ added = text.toList ∧
        (t.offer text).2.unread = if t.opening then added.dropLast ++ ['\x00'] else added) := by
  unfold offer
  split
  · rename_i hnone
    refine Or.inl ⟨?_, rfl⟩
    rintro ⟨⟨added, happend⟩, -⟩
    rw [List.isPrefixOf?_eq_some_iff_append_eq.mpr happend] at hnone
    cases hnone
  · rename_i hnothing
    refine Or.inl ⟨?_, rfl⟩
    rw [extendedBy_iff]
    rintro ⟨added, hne, happend⟩
    rw [List.isPrefixOf?_eq_some_iff_append_eq.mpr happend] at hnothing
    exact hne (Option.some.inj hnothing)
  · rename_i added hne hadded
    have happend := List.append_eq_of_isPrefixOf?_eq_some hadded
    have hextended : t.ExtendedBy text := extendedBy_iff.mpr ⟨added, hne, happend⟩
    have hlast : text.toList.getLast? = added.getLast? := by
      rw [← happend, List.getLast?_append_of_ne_nil _ hne]
    split
    · rename_i hopen
      exact Or.inr (Or.inl ⟨hextended, hlast ▸ hopen, rfl⟩)
    · rename_i hended
      have hended : text.toList.getLast? = some '\n' := hlast.trans (Decidable.not_not.mp hended)
      split
      · rename_i hopening
        exact Or.inr (Or.inr
          ⟨hextended, hended, rfl, rfl, rfl, added, happend, by simp [printLineBreak]⟩)
      · rename_i hopening
        refine Or.inr (Or.inr ⟨hextended, hended, rfl, rfl, ?_, added, happend, rfl⟩)
        simpa using hopening

/-- A line that ends in a line feed is accepted when it is typed. It is
all there is to read then, as it is, or with NUL at its end if it is the
first record of a staged transcript. -/
theorem type_of_ended (t : Transcript) {line : String}
    (h : line.toList.getLast? = some '\n') :
    (t.type line).1 = .accepted ∧ (t.type line).2.opening = false ∧
      (t.type line).2.unread
        = if t.opening then line.toList.dropLast ++ ['\x00'] else line.toList := by
  have hne : line.toList ≠ [] := by
    intro hnil
    rw [hnil] at h
    cases h
  have hended : (t.contents ++ line).toList.getLast? = some '\n' := by
    rw [String.toList_append, List.getLast?_append_of_ne_nil _ hne, h]
  have hextends : t.ExtendedBy (t.contents ++ line) :=
    extendedBy_iff.mpr ⟨_, hne, String.toList_append.symm⟩
  rcases t.offer_cases (t.contents ++ line) with
    ⟨hnot, -⟩ | ⟨-, hopen, -⟩ | ⟨-, -, haccepted, -, hopening, added, happend, hunread⟩
  · exact absurd hextends hnot
  · exact absurd hended hopen
  · rw [String.toList_append] at happend
    obtain rfl := List.append_cancel_left happend
    exact ⟨haccepted, hopening, hunread⟩

/-- A text is rejected exactly if it does not extend the transcript. -/
theorem offer_eq_rejected_iff {t : Transcript} {text : String} :
    (t.offer text).1 = .rejected ↔ ¬ t.ExtendedBy text := by
  rcases t.offer_cases text with ⟨hnot, hoffer⟩ | ⟨hext, -, hoffer⟩ | ⟨hext, -, hoffer, -⟩
  · simp [hoffer, hnot]
  · simp [hoffer, hext]
  · simp [hoffer, hext]

/-- It is left pending exactly if it extends the transcript and its last
line is not finished. -/
theorem offer_eq_pending_iff {t : Transcript} {text : String} :
    (t.offer text).1 = .pending ↔ t.ExtendedBy text ∧ text.toList.getLast? ≠ some '\n' := by
  rcases t.offer_cases text with ⟨hnot, hoffer⟩ | ⟨hext, hline, hoffer⟩ | ⟨hext, hline, hoffer, -⟩
  · simp [hoffer, hnot]
  · simp [hoffer, hext, hline]
  · simp [hoffer, hline]

/-- A text that is not accepted changes nothing. -/
theorem offer_of_not_accepted {t : Transcript} {text : String}
    (h : (t.offer text).1 ≠ .accepted) : (t.offer text).2 = t := by
  rcases t.offer_cases text with ⟨-, hoffer⟩ | ⟨-, -, hoffer⟩ | ⟨-, -, hoffer, -⟩
  · rw [hoffer]
  · rw [hoffer]
  · exact absurd hoffer h

end Transcript

/-! ### Uses -/

/-- One use of a transcript, by the program or by its user. -/
inductive Use where
  | readChar
  | readNumber
  | print (text : String)
  | printLineBreak (doubled : Bool)
  | offer (text : String)

namespace Use

/-- The transcript after a use. -/
def apply : Use → Transcript → Transcript
  | readChar, t => t.readChar.2
  | readNumber, t => t.readNumber.2
  | print text, t => t.print text
  | printLineBreak doubled, t => t.printLineBreak doubled
  | offer text, t => (t.offer text).2

/-- The characters that a use takes from the record. Reading a
character takes the one that it returns; reading a number takes all
that is not left to read after it. -/
def takes : Use → Transcript → List Char
  | readChar, t =>
    match t.readChar.1 with
    | .ready c => [c]
    | _ => []
  | readNumber, t => t.unread.take (t.unread.length - t.readNumber.2.unread.length)
  | _, _ => []

end Use

/-- The transcript after a sequence of uses. -/
def Transcript.after (t : Transcript) (uses : List Use) : Transcript :=
  uses.foldl (fun t use => use.apply t) t

/-- An account of what became of the texts that the user offered. -/
structure Account where
  /-- How many texts were accepted. -/
  accepted : Nat
  /-- What the last of them has given to read. -/
  record : List Char
  /-- What the reads since then have taken, in order. -/
  taken : List Char
  deriving DecidableEq

namespace Account

/-- Nothing was accepted. -/
def empty : Account := ⟨0, [], []⟩

/-- How far the record has been read. -/
def cursor (a : Account) : Nat := a.taken.length

/-- Enters a use of the transcript `t`. An accepted text gives what it
adds to the transcript to read; the last character of the first text
of a staged transcript, a line feed, is read as NUL. -/
def note (a : Account) (t : Transcript) : Use → Account
  | .offer text =>
    if (t.offer text).1 = .accepted then
      let added := text.toList.drop t.contents.toList.length
      { accepted := a.accepted + 1
        record := if t.mode = .staged ∧ a.accepted = 0 then added.dropLast ++ ['\x00'] else added
        taken := [] }
    else
      a
  | use => { a with taken := a.taken ++ use.takes t }

/-- The account after a sequence of uses of the transcript `t`. -/
def after (a : Account) (t : Transcript) : List Use → Account
  | [] => a
  | use :: uses => (a.note t use).after (use.apply t) uses

/-- What was taken and what is left make up the record, and a staged
transcript has got its first record when the account says so. -/
structure Balanced (a : Account) (t : Transcript) : Prop where
  taken_append : a.taken ++ t.unread = a.record
  opening_iff : t.opening ↔ t.mode = .staged ∧ a.accepted = 0

/-- The account of a fresh transcript is empty. -/
theorem balanced_fresh (mode : InputMode) : empty.Balanced (.fresh mode) := by
  cases mode <;> exact ⟨rfl, by simp [Transcript.fresh, empty]⟩

end Account

/-! ### Reads -/

namespace Use

/-- Reading a character takes one character, or finds none. -/
theorem takes_readChar (t : Transcript) :
    readChar.takes t ++ t.readChar.2.unread = t.unread ∧
      (t.readChar.1 ≠ .exhausted → readChar.takes t ≠ []) := by
  cases hunread : t.unread with
  | nil => simp [takes, Transcript.readChar, hunread]
  | cons c rest => simp [takes, Transcript.readChar, hunread]

/-- Reading a number takes a piece from the front of what is left to
read, and reads what this piece spells. -/
theorem takes_readNumber (t : Transcript) :
    readNumber.takes t ++ t.readNumber.2.unread = t.unread ∧
      EsoHost.readNumber (readNumber.takes t) = (t.readNumber.1, []) ∧
      (t.readNumber.1 ≠ .exhausted → readNumber.takes t ≠ []) := by
  obtain ⟨taken, happend, hread, hne⟩ := readNumber_takes t.unread
  -- `takes` counts characters, and the piece is the one with that many.
  have hlength : t.unread.length - t.readNumber.2.unread.length = taken.length := by
    have hsum := congrArg List.length happend
    rw [List.length_append] at hsum
    show t.unread.length - (EsoHost.readNumber t.unread).2.length = taken.length
    omega
  have htakes : readNumber.takes t = taken := by
    rw [takes, hlength, ← happend, List.take_left]
  rw [htakes]
  exact ⟨happend, hread, hne⟩

/-- A use other than an offer takes a piece from the front of what is
left to read. It changes neither the mode nor whether a staged
transcript has got its record. -/
theorem takes_append {use : Use} (huse : ∀ text, use ≠ .offer text) (t : Transcript) :
    use.takes t ++ (use.apply t).unread = t.unread ∧ (use.apply t).mode = t.mode ∧
      (use.apply t).opening = t.opening := by
  cases use with
  | readChar =>
    refine ⟨(takes_readChar t).1, ?_, ?_⟩
    · cases hunread : t.unread <;> simp [apply, Transcript.readChar, hunread]
    · cases hunread : t.unread <;> simp [apply, Transcript.readChar, hunread]
  | readNumber => exact ⟨(takes_readNumber t).1, rfl, rfl⟩
  | print text => exact ⟨rfl, rfl, rfl⟩
  | printLineBreak doubled => exact ⟨rfl, rfl, rfl⟩
  | offer text => exact absurd rfl (huse text)

/-- No use takes back any text. -/
theorem grows_apply (use : Use) (t : Transcript) : t.Grows (use.apply t) := by
  cases use with
  | readChar => exact .of_contents_eq t.contents_readChar
  | readNumber => exact .of_contents_eq rfl
  | print text => exact t.grows_print text
  | printLineBreak doubled => exact t.grows_printLineBreak doubled
  | offer text => exact t.grows_offer text

end Use

/-- No number of uses does. -/
theorem Transcript.grows_after (t : Transcript) (uses : List Use) : t.Grows (t.after uses) := by
  induction uses generalizing t with
  | nil => exact .refl t
  | cons use uses ih => exact (use.grows_apply t).trans (ih (use.apply t))

/-! ### The account is right -/

namespace Account

/-- A use that is not an offer only adds to what was taken. -/
theorem note_of_not_offer {use : Use} (huse : ∀ text, use ≠ .offer text) (a : Account)
    (t : Transcript) : a.note t use = { a with taken := a.taken ++ use.takes t } := by
  cases use with
  | offer text => exact absurd rfl (huse text)
  | _ => rfl

/-- What such a use takes, it takes from what was left. -/
theorem Balanced.of_not_offer {a : Account} {t : Transcript} (h : a.Balanced t) {use : Use}
    (huse : ∀ text, use ≠ .offer text) : (a.note t use).Balanced (use.apply t) := by
  obtain ⟨happend, hmode, hopening⟩ := use.takes_append huse t
  rw [note_of_not_offer huse]
  refine ⟨?_, ?_⟩
  · show a.taken ++ use.takes t ++ (use.apply t).unread = a.record
    rw [List.append_assoc, happend, h.taken_append]
  · rw [hopening, hmode]
    exact h.opening_iff

/-- One use more. -/
theorem Balanced.note {a : Account} {t : Transcript} (h : a.Balanced t) (use : Use) :
    (a.note t use).Balanced (use.apply t) := by
  cases use with
  | offer text =>
    rcases t.offer_cases text with ⟨-, hsame⟩ | ⟨-, -, hsame⟩ |
      ⟨-, -, haccepted, hmode, hopening, added, happend, hunread⟩
    · simpa [Account.note, Use.apply, hsame] using h
    · simpa [Account.note, Use.apply, hsame] using h
    · have hadded : text.toList.drop t.contents.toList.length = added := by
        rw [← happend, List.drop_left]
      simp only [Account.note, haccepted, if_true, Use.apply, hadded]
      refine ⟨?_, ?_⟩
      · rw [List.nil_append, hunread]
        -- The NUL is due exactly if the transcript was still opening.
        by_cases hopen : t.opening
        · rw [if_pos hopen, if_pos (h.opening_iff.mp hopen)]
        · rw [if_neg hopen, if_neg fun hstaged => hopen (h.opening_iff.mpr hstaged)]
      · simp [hopening]
  | readChar => exact h.of_not_offer (by simp)
  | readNumber => exact h.of_not_offer (by simp)
  | print text => exact h.of_not_offer (by simp)
  | printLineBreak doubled => exact h.of_not_offer (by simp)

/-- The cursor counts what was taken, and something is left as long as
it has not reached the end of the record. -/
theorem Balanced.hasPending_iff {a : Account} {t : Transcript} (h : a.Balanced t) :
    t.hasPending ↔ a.cursor < a.record.length := by
  rw [← h.taken_append, List.length_append, cursor, Transcript.hasPending]
  cases t.unread with
  | nil => simp
  | cons c rest => simp

/-- A use that takes something moves the cursor. -/
theorem cursor_lt_note {use : Use} (huse : ∀ text, use ≠ .offer text) (a : Account)
    {t : Transcript} (htakes : use.takes t ≠ []) : a.cursor < (a.note t use).cursor := by
  have hpos := List.length_pos_iff.mpr htakes
  rw [note_of_not_offer huse, cursor, cursor, List.length_append]
  omega

/-- Any number of uses. -/
theorem Balanced.after {a : Account} {t : Transcript} (h : a.Balanced t) (uses : List Use) :
    (a.after t uses).Balanced (t.after uses) := by
  induction uses generalizing a t with
  | nil => exact h
  | cons use uses ih => exact ih (h.note use)

end Account

/-! ### What a transcript promises -/

/-- What the program and its user can rely on, when `a` is the account
of the transcript `t`. -/
structure Transcript.Kept (t : Transcript) (a : Account) : Prop where
  /-- Whatever happens, text is only added at the end. -/
  grows : ∀ uses, t.Grows (t.after uses)
  /-- A text is rejected exactly if it does not extend the transcript. -/
  rejected_iff : ∀ text, (t.offer text).1 = .rejected ↔ ¬ t.ExtendedBy text
  /-- A text is left pending exactly if it extends the transcript and
  its last line is not finished. -/
  pending_iff : ∀ text,
    (t.offer text).1 = .pending ↔ t.ExtendedBy text ∧ text.toList.getLast? ≠ some '\n'
  /-- A text that is not accepted changes nothing. -/
  offer_eq : ∀ text, (t.offer text).1 ≠ .accepted → (t.offer text).2 = t
  /-- What the reads have taken since the last accepted text, in order,
  followed by what is left to read, is the record that it gave. -/
  taken_append : a.taken ++ t.unread = a.record
  cursor_le : a.cursor ≤ a.record.length
  hasPending_iff : t.hasPending ↔ a.cursor < a.record.length
  readChar_advances : t.readChar.1 ≠ .exhausted → a.cursor < (a.note t .readChar).cursor
  readNumber_advances : t.readNumber.1 ≠ .exhausted → a.cursor < (a.note t .readNumber).cursor
  /-- A number is what the characters spell that were taken for it. -/
  readNumber_eq : EsoHost.readNumber (Use.readNumber.takes t) = (t.readNumber.1, [])
  readChar_exhausted : t.readChar.1 = .exhausted → ¬ t.readChar.2.hasPending
  readNumber_exhausted : t.readNumber.1 = .exhausted → ¬ t.readNumber.2.hasPending

/-- Every record is read once. After any uses of a fresh transcript, in
either mode, text is only ever added, offers are taken as the rules
say, and the characters taken by reads since the last accepted text are
the front of the record that it gave, none left out and none taken
twice. -/
theorem kept_after_uses (mode : InputMode) (uses : List Use) :
    ((Transcript.fresh mode).after uses).Kept (Account.empty.after (.fresh mode) uses) := by
  have hbalanced := (Account.balanced_fresh mode).after uses
  -- The promises hold of any transcript with a balanced account.
  generalize (Transcript.fresh mode).after uses = t at hbalanced
  generalize Account.empty.after (.fresh mode) uses = a at hbalanced
  exact {
    grows := t.grows_after
    rejected_iff := fun text => Transcript.offer_eq_rejected_iff
    pending_iff := fun text => Transcript.offer_eq_pending_iff
    offer_eq := fun text => Transcript.offer_of_not_accepted
    taken_append := hbalanced.taken_append
    cursor_le := by
      rw [← hbalanced.taken_append, List.length_append]
      exact Nat.le_add_right _ _
    hasPending_iff := hbalanced.hasPending_iff
    readChar_advances := fun hfound =>
      a.cursor_lt_note (by simp) ((Use.takes_readChar t).2 hfound)
    readNumber_advances := fun hfound =>
      a.cursor_lt_note (by simp) ((Use.takes_readNumber t).2.2 hfound)
    readNumber_eq := (Use.takes_readNumber t).2.1
    readChar_exhausted := by
      intro hnothing
      obtain ⟨hunread, hsame⟩ := Transcript.unread_of_readChar hnothing
      simp [Transcript.hasPending, hsame, hunread]
    readNumber_exhausted := by
      intro hnothing
      have hrest := (fillers_of_readNumber (Prod.ext hnothing rfl)).2
      simp [Transcript.hasPending, Transcript.readNumber, hrest] }

end EsoHost
