/-!
# `EsoHost.Text.Decimal`: decimal numerals

A numeral is an optional sign followed by at least one ASCII digit.
Its value is exact; whether it fits a word is asked afterwards.
-/

set_option autoImplicit false

namespace EsoHost.Text

/-- The number that a list of ASCII digits spells, the first digit
counting most. -/
def digitsValue (digits : List Char) : Nat :=
  digits.foldl (fun n d => 10 * n + (d.toNat - '0'.toNat)) 0

/-- The value of digits under a sign. -/
def signedValue (negative : Bool) (digits : List Char) : Int :=
  if negative then -(digitsValue digits : Int) else digitsValue digits

/-- The 64-bit word with a given value, if there is one. -/
def wordOf? (n : Int) : Option Int64 :=
  if Int64.minValue.toInt ≤ n ∧ n ≤ Int64.maxValue.toInt then some (Int64.ofInt n) else none

/-- The value of a text that is a numeral as a whole: a `+`, a `-` or
no sign, then ASCII digits and nothing else. -/
def readInteger? (text : List Char) : Option Int :=
  let numeral (negative : Bool) (digits : List Char) : Option Int :=
    if digits ≠ [] ∧ digits.all Char.isDigit then some (signedValue negative digits) else none
  match text with
  | '+' :: digits => numeral false digits
  | '-' :: digits => numeral true digits
  | digits => numeral false digits

end EsoHost.Text
