/-!
# `EsoHost.Text.Whitespace`: white space

The characters with the Unicode property `White_Space`: twenty-five of
them, in ten runs of code points.
-/

set_option autoImplicit false

namespace EsoHost.Text

/-- The runs of white space, each by its first and last code point. -/
def whiteSpaceRuns : List (Nat × Nat) :=
  [(0x09, 0x0D), (0x20, 0x20), (0x85, 0x85), (0xA0, 0xA0), (0x1680, 0x1680),
    (0x2000, 0x200A), (0x2028, 0x2029), (0x202F, 0x202F), (0x205F, 0x205F), (0x3000, 0x3000)]

/-- The character is white space. -/
def isWhiteSpace (c : Char) : Bool :=
  whiteSpaceRuns.any fun (first, last) => first ≤ c.toNat && c.toNat ≤ last

end EsoHost.Text
