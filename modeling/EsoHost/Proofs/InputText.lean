import Mathlib.Data.List.Basic
import EsoHost.Text.Lines

/-!
# `EsoHost.Proofs.InputText`: a text comes as its lines

Input is cut into lines as bytes, and each line is decoded by itself
(`Text.inputLines`). For the bytes of a text this is the same as cutting
its characters: `inputLines_toUTF8`. The reason is one about UTF-8. A
byte of value 10 occurs in the code of a line feed and in no other
(`ne_feed_of_mem_utf8EncodeChar`), so no cut falls into a character.

`flatMap_endLine_cutText` puts the lines together again. Each is taken
with a line feed at its end, and only the last one may need it.
-/

set_option autoImplicit false

namespace EsoHost.Text

/-! ### Bytes of a text -/

/-- The bytes of characters, in UTF-8. -/
def encode (cs : List Char) : List UInt8 := cs.flatMap String.utf8EncodeChar

/-- The list of bytes is the list of the array that holds them. -/
theorem toList_eq_data (bytes : ByteArray) : bytes.toList = bytes.data.toList := by
  -- The loop has an accumulator, which holds what was read, backwards.
  have hloop : ∀ (i : Nat) (done : List UInt8),
      ByteArray.toList.loop bytes i done = done.reverse ++ bytes.data.toList.drop i := by
    intro i done
    fun_induction ByteArray.toList.loop bytes i done with
    | case1 i done hi ih =>
      have hi' : i < bytes.data.toList.length := by simpa using hi
      rw [ih, List.drop_eq_getElem_cons hi']
      simp [ByteArray.get!, hi]
    | case2 i done hi =>
      rw [List.drop_eq_nil_of_le (by simpa using Nat.le_of_not_lt hi), List.append_nil]
  exact hloop 0 []

/-- The bytes of a text are those of its characters. -/
theorem toList_toUTF8 (text : String) : text.toUTF8.toList = encode text.toList := by
  have hbytes : text.toUTF8 = text.toList.utf8Encode := by
    rw [String.toUTF8_eq_toByteArray, ← String.toByteArray_ofList, String.ofList_toList]
  rw [toList_eq_data, hbytes]
  exact List.toList_data_toByteArray

/-- Decoding gives the characters back. -/
theorem fromUTF8?_encode (cs : List Char) :
    String.fromUTF8? (ByteArray.mk (encode cs).toArray) = some (String.ofList cs) := by
  have hbytes : ByteArray.mk (encode cs).toArray = cs.utf8Encode := by
    refine ByteArray.ext (Array.toList_inj.mp ?_)
    exact List.toList_data_toByteArray.symm
  have hvalid : (ByteArray.mk (encode cs).toArray).IsValidUTF8 := ⟨cs, hbytes⟩
  rw [String.fromUTF8?, dif_pos hvalid]
  refine congrArg some (String.toByteArray_inj.mp ?_)
  rw [String.toByteArray_ofList]
  exact hbytes

/-- The code of a character has no line feed in it, unless the character
is one: a code of several bytes has none below 128. -/
theorem ne_feed_of_mem_utf8EncodeChar {c : Char} (hc : c ≠ '\n') :
    ∀ b ∈ String.utf8EncodeChar c, b ≠ 10 := by
  have hfeed : c.val.toNat ≠ 10 := by
    intro heq
    exact hc (Char.ext (UInt32.toNat_inj.mp heq))
  intro b hb heq
  have hb10 : b.toNat = 10 := by rw [heq]; rfl
  -- One byte is the character itself. In a longer code every byte has its
  -- highest bit set.
  simp only [String.utf8EncodeChar] at hb
  split at hb
  · rw [List.mem_singleton.mp hb, UInt8.toNat_ofNat'] at hb10
    omega
  · split at hb
    · simp only [List.mem_cons, List.not_mem_nil, or_false] at hb
      rcases hb with rfl | rfl <;> rw [UInt8.toNat_ofNat'] at hb10 <;> omega
    · split at hb
      · simp only [List.mem_cons, List.not_mem_nil, or_false] at hb
        rcases hb with rfl | rfl | rfl <;> rw [UInt8.toNat_ofNat'] at hb10 <;> omega
      · simp only [List.mem_cons, List.not_mem_nil, or_false] at hb
        rcases hb with rfl | rfl | rfl | rfl <;> rw [UInt8.toNat_ofNat'] at hb10 <;> omega

/-! ### Cutting -/

/-- Puts something in front of the first line. -/
def atFirst {α : Type} (front : List α) : List (List α) → List (List α)
  | [] => [front]
  | line :: rest => (front ++ line) :: rest

/-- Cuts characters after every line feed. -/
def cutText : List Char → List (List Char)
  | [] => []
  | c :: cs => if c = '\n' then [c] :: cutText cs else atFirst [c] (cutText cs)

/-- A byte that is no line feed joins the first line. -/
theorem cutLines_cons_of_ne {b : UInt8} (h : b ≠ 10) (bytes : List UInt8) :
    cutLines (b :: bytes) = atFirst [b] (cutLines bytes) := by
  rw [cutLines, if_neg h]
  cases cutLines bytes <;> rfl

/-- Bytes without a line feed all come to the first line. -/
theorem cutLines_append {bytes : List UInt8} (hne : bytes ≠ []) (h : ∀ b ∈ bytes, b ≠ 10)
    (rest : List UInt8) : cutLines (bytes ++ rest) = atFirst bytes (cutLines rest) := by
  induction bytes with
  | nil => exact absurd rfl hne
  | cons b bytes ih =>
    rw [List.cons_append, cutLines_cons_of_ne (h b List.mem_cons_self)]
    cases bytes with
    | nil => rfl
    | cons b' bytes =>
      rw [ih (by simp) fun d hd => h d (List.mem_cons_of_mem _ hd)]
      cases cutLines rest <;> rfl

/-- Cutting bytes is cutting characters. -/
theorem cutLines_encode (cs : List Char) : cutLines (encode cs) = (cutText cs).map encode := by
  induction cs with
  | nil => rfl
  | cons c cs ih =>
    have hencode : encode (c :: cs) = String.utf8EncodeChar c ++ encode cs := List.flatMap_cons
    rw [hencode, cutText]
    split
    · rename_i hc
      rw [hc, List.map_cons, ← ih]
      rfl
    · rename_i hc
      rw [cutLines_append String.utf8EncodeChar_ne_nil (ne_feed_of_mem_utf8EncodeChar hc), ih]
      cases cutText cs with
      | nil => simp [atFirst, encode]
      | cons line lines => simp [atFirst, encode]

/-- The input lines of a text are the lines of the text. -/
theorem inputLines_toUTF8 (text : String) :
    inputLines text.toUTF8 = (cutText text.toList).map fun line => some (String.ofList line) := by
  rw [inputLines, toList_toUTF8, cutLines_encode, List.map_map]
  -- Each line is decoded by itself, and holds whole characters.
  refine List.map_congr_left fun line _ => ?_
  exact fromUTF8?_encode line

/-! ### Putting together -/

/-- The text with a line feed at the end of its last line, added if it
is missing. An empty text has no line. -/
def endText (text : String) : String := if text.toList = [] then text else endLine text

/-- A line gets a line feed if it has none at its end. -/
theorem toList_endLine (line : String) :
    (endLine line).toList
      = if line.toList.getLast? = some '\n' then line.toList else line.toList ++ ['\n'] := by
  unfold endLine
  split
  · rfl
  · exact String.toList_push _

/-- It has one then. -/
theorem getLast?_endLine (line : String) : (endLine line).toList.getLast? = some '\n' := by
  rw [toList_endLine]
  split
  · assumption
  · exact List.getLast?_concat

/-- A character in front of a line does not change how the line ends. -/
theorem toList_endLine_cons {c d : Char} {line : List Char} :
    (endLine (String.ofList (c :: d :: line))).toList
      = c :: (endLine (String.ofList (d :: line))).toList := by
  simp only [toList_endLine, String.toList_ofList, List.getLast?_cons_cons]
  split <;> rfl

/-- No line is empty: it has its line feed at least. -/
theorem ne_nil_of_mem_cutText {cs line : List Char} (h : line ∈ cutText cs) : line ≠ [] := by
  induction cs generalizing line with
  | nil => exact absurd h List.not_mem_nil
  | cons c cs ih =>
    rw [cutText] at h
    split at h
    · rcases List.mem_cons.mp h with rfl | h
      · simp
      · exact ih h
    · cases hcut : cutText cs with
      | nil =>
        rw [hcut] at h
        rw [List.mem_singleton.mp h]
        simp
      | cons first rest =>
        rw [hcut] at h ih
        rcases List.mem_cons.mp h with rfl | h
        · simp
        · exact ih (List.mem_cons_of_mem _ h)

/-- A text with a character has a line. -/
theorem cutText_ne_nil (c : Char) (cs : List Char) : cutText (c :: cs) ≠ [] := by
  rw [cutText]
  split
  · simp
  · cases cutText cs <;> simp [atFirst]

/-- The lines of a text, each with a line feed at its end, make up the
text with a line feed at its end. -/
theorem flatMap_endLine_cutText (cs : List Char) :
    ((cutText cs).flatMap fun line => (endLine (String.ofList line)).toList)
      = (endText (String.ofList cs)).toList := by
  induction cs with
  | nil => rfl
  | cons c cs ih =>
    have hend : (endText (String.ofList (c :: cs))).toList
        = (endLine (String.ofList (c :: cs))).toList := by
      simp [endText]
    rw [hend]
    cases cs with
    | nil =>
      by_cases hc : c = '\n'
      · simp [cutText, hc]
      · simp [cutText, hc, atFirst]
    | cons d cs =>
      have hrest : (endText (String.ofList (d :: cs))).toList
          = (endLine (String.ofList (d :: cs))).toList := by
        simp [endText]
      rw [hrest] at ih
      rw [toList_endLine_cons, ← ih, cutText]
      split
      · rename_i hc
        rw [List.flatMap_cons, hc]
        rfl
      · -- The character joins the first line of what comes after it.
        obtain ⟨line, lines, hcut⟩ := List.exists_cons_of_ne_nil (cutText_ne_nil d cs)
        have hline : line ≠ [] := ne_nil_of_mem_cutText (by rw [hcut]; exact List.mem_cons_self)
        obtain ⟨first, line, rfl⟩ := List.exists_cons_of_ne_nil hline
        rw [hcut]
        show (endLine (String.ofList (c :: first :: line))).toList ++ _ = _
        rw [toList_endLine_cons]
        rfl

end EsoHost.Text
