/-!
# `EsoHost.Piet.Word`: arithmetic on 64-bit words

Operands are signed 64-bit words and arithmetic on them wraps.
Division rounds towards negative infinity, and the remainder has the
sign of the divisor. The word operations round towards zero, so each
needs a correction if the signs differ. Dividing by zero has no
result.
-/

set_option autoImplicit false

namespace EsoHost.Piet.Word

/-- The quotient rounded towards negative infinity. -/
def floorDiv? (l r : Int64) : Option Int64 :=
  if r = 0 then none
  else if l % r ≠ 0 ∧ ¬(l < 0 ↔ r < 0) then some (l / r - 1)
  else some (l / r)

/-- The remainder that has the sign of the divisor. -/
def floorMod? (l r : Int64) : Option Int64 :=
  if r = 0 then none
  else if l % r ≠ 0 ∧ ¬(l % r < 0 ↔ r < 0) then some (l % r + r)
  else some (l % r)

/-- One for true, zero for false. -/
def ofBool (b : Bool) : Int64 := if b then 1 else 0

/-- The character that a word prints as. Only tab, line feed, carriage
return and the visible characters of Latin-1 are printed. -/
def printable? (code : Int64) : Option Char :=
  let n := code.toInt
  if n = 9 ∨ n = 10 ∨ n = 13 ∨ 32 ≤ n ∧ n ≤ 126 ∨ 160 ≤ n ∧ n ≤ 255 then
    some (Char.ofNat n.toNat)
  else
    none

end EsoHost.Piet.Word
