import Mathlib.Data.List.Basic
import Mathlib.Data.List.TakeWhile
import EsoHost.Transcript

/-!
# `EsoHost.Proofs.Transcript`: transcripts only grow

Whatever is printed or typed comes at the end (`Transcript.Grows`), and
reading changes no text at all. A read that finds nothing leaves
nothing to read.
-/

set_option autoImplicit false

namespace EsoHost

/-! ### Reading -/

/-- What is found may be changed, but not made out of nothing. -/
theorem Reading.exhausted_of_map {α β : Type} {f : α → β} {r : Reading α}
    (h : r.map f = .exhausted) : r = .exhausted := by
  cases r with
  | exhausted => rfl
  | _ => cases h

/-- Reading a number finds nothing exactly when only blanks are left,
and uses them up. -/
theorem readNumber_of_fillers {record : List Char} (h : ∀ c ∈ record, isFiller c) :
    readNumber record = (.exhausted, []) := by
  have hdrop : record.dropWhile isFiller = [] := List.dropWhile_eq_nil_iff.mpr h
  simp [readNumber, hdrop]

/-- A read of a number that finds nothing has found blanks only, and has
used them up. -/
theorem fillers_of_readNumber {record rest : List Char}
    (h : readNumber record = (.exhausted, rest)) : (∀ c ∈ record, isFiller c) ∧ rest = [] := by
  cases hdrop : record.dropWhile isFiller with
  | nil =>
    simp only [readNumber, hdrop] at h
    exact ⟨List.dropWhile_eq_nil_iff.mp hdrop, (Prod.mk.inj h).2.symm⟩
  | cons first tail =>
    simp only [readNumber, hdrop] at h
    -- Whatever follows the blanks, it is a number or malformed, so
    -- something was found.
    generalize (if first = '-' ∨ first = '+' then tail else first :: tail) = body at h
    split at h
    · exact absurd (Prod.mk.inj h).1 (by simp)
    · split at h
      · exact absurd (Prod.mk.inj h).1 (by simp)
      · exact absurd (Prod.mk.inj h).1 (by simp)

namespace Transcript

/-- Reading a character changes no text. -/
theorem contents_readChar (t : Transcript) : t.readChar.2.contents = t.contents := by
  unfold readChar
  split <;> rfl

/-- A character that is wanted and not there: nothing was left. -/
theorem unread_of_readChar {t : Transcript} (h : t.readChar.1 = .exhausted) :
    t.unread = [] ∧ t.readChar.2 = t := by
  cases hunread : t.unread with
  | nil => exact ⟨rfl, by simp [readChar, hunread]⟩
  | cons c rest => exact absurd h (by simp [readChar, hunread])

/-- The transcript without what was left to read. -/
def emptied (t : Transcript) : Transcript := { t with unread := [] }

/-- A transcript with nothing to read is as it would be without it. -/
theorem emptied_of_unread {t : Transcript} (h : t.unread = []) : t.emptied = t := by
  rw [emptied, ← h]

/-! ### Growth -/

/-- The second transcript has the text of the first, and maybe more
after it. -/
def Grows (t t' : Transcript) : Prop := t.contents.toList <+: t'.contents.toList

/-- A transcript that stays as it is has grown, by nothing. -/
theorem Grows.refl (t : Transcript) : t.Grows t := List.prefix_refl _

/-- What has grown twice has grown. -/
theorem Grows.trans {t t' t'' : Transcript} (h : t.Grows t') (h' : t'.Grows t'') :
    t.Grows t'' :=
  List.IsPrefix.trans h h'

/-- Only the text counts. -/
theorem Grows.of_contents_eq {t t' : Transcript} (h : t'.contents = t.contents) :
    t.Grows t' :=
  ⟨[], by rw [List.append_nil, h]⟩

/-- Printing adds at the end. -/
theorem grows_print (t : Transcript) (text : String) : t.Grows (t.print text) := by
  rw [Grows, contents_print, String.toList_append]
  exact List.prefix_append _ _

/-- So does a line break. -/
theorem grows_printLineBreak (t : Transcript) (doubled : Bool) :
    t.Grows (t.printLineBreak doubled) :=
  grows_print _ _

/-- So does the notice. -/
theorem grows_printStop (t : Transcript) : t.Grows t.printStop :=
  (t.grows_printLineBreak false).trans (grows_print _ _)

/-- An accepted text extends the transcript, and no other text changes
it. -/
theorem grows_offer (t : Transcript) (text : String) : t.Grows (t.offer text).2 := by
  unfold offer
  split
  · exact .refl t
  · exact .refl t
  · rename_i added _ hadded
    have hgrown : t.contents.toList <+: text.toList :=
      ⟨added, List.append_eq_of_isPrefixOf?_eq_some hadded⟩
    split
    · exact .refl t
    · split
      · -- The first record of a staged run is followed by a banner.
        have htyped : t.Grows ⟨t.mode, text, added.dropLast ++ ['\x00'], false⟩ := hgrown
        exact htyped.trans ((grows_printLineBreak _ true).trans (grows_print _ runBanner))
      · exact hgrown

end Transcript

end EsoHost
