/-!
# `EsoHost.Piet.Color`: the twenty codel colors

A codel is white, black, or one of eighteen chromatic colors: six hues
in three lightnesses. Both scales are cycles, and a Piet program only
ever looks at how many steps lie between two colors on them
(`Color.stepsTo?`).

* `Color.toRgb` gives each color its screen value; every channel is
  the strong or the weak intensity of the color's lightness.
* `Color.ofRgb?` reads a screen value back, `Color.ofRgb?_toRgb`.
-/

set_option autoImplicit false

namespace EsoHost.Piet

/-! ### Screen values -/

/-- A screen color: eight bits each of red, green and blue. -/
structure Rgb where
  red : UInt8
  green : UInt8
  blue : UInt8
  deriving DecidableEq, Repr

/-- The upper-case hexadecimal digit of a value below sixteen. -/
def hexDigit (n : Nat) : Char :=
  if n < 10 then Char.ofNat ('0'.toNat + n) else Char.ofNat ('A'.toNat + (n - 10))

/-- A byte as two upper-case hexadecimal digits. -/
def hexByte (b : UInt8) : String :=
  String.ofList [hexDigit (b.toNat / 16), hexDigit (b.toNat % 16)]

/-- The written form of a screen color, `#RRGGBB` in upper case. -/
def Rgb.hex (c : Rgb) : String :=
  "#" ++ hexByte c.red ++ hexByte c.green ++ hexByte c.blue

/-! ### Hue and lightness -/

/-- The six hues, in the order of the hue cycle. -/
inductive Hue where
  | red | yellow | green | cyan | blue | magenta
  deriving DecidableEq, Repr

/-- The three lightnesses, in the order of the lightness cycle. -/
inductive Lightness where
  | light | normal | dark
  deriving DecidableEq, Repr

namespace Hue

/-- All hues, in cycle order. -/
def all : List Hue := [red, yellow, green, cyan, blue, magenta]

/-- The place of a hue on its cycle, counted from red. -/
def index : Hue → Nat
  | red => 0
  | yellow => 1
  | green => 2
  | cyan => 3
  | blue => 4
  | magenta => 5

/-- How many steps forward on the hue cycle lead from `a` to `b`. -/
def stepsTo (a b : Hue) : Nat := (b.index + 6 - a.index) % 6

end Hue

namespace Lightness

/-- All lightnesses, in cycle order. -/
def all : List Lightness := [light, normal, dark]

/-- The place of a lightness on its cycle, counted from light. -/
def index : Lightness → Nat
  | light => 0
  | normal => 1
  | dark => 2

/-- How many steps darker, around the cycle, lead from `a` to `b`. -/
def stepsTo (a b : Lightness) : Nat := (b.index + 3 - a.index) % 3

/-- The intensity of the channels that a hue lights up. -/
def strong : Lightness → UInt8
  | light => 0xFF
  | normal => 0xFF
  | dark => 0xC0

/-- The intensity of the channels that a hue leaves out. -/
def weak : Lightness → UInt8
  | light => 0xC0
  | normal => 0
  | dark => 0

end Lightness

/-! ### Colors -/

/-- The color of a codel. -/
inductive Color where
  | chromatic (hue : Hue) (lightness : Lightness)
  | white
  | black
  deriving DecidableEq, Repr

namespace Color

/-- Every legal color: the chromatic ones hue by hue, then white and
black. -/
def all : List Color :=
  Hue.all.flatMap (fun h => Lightness.all.map (chromatic h)) ++ [white, black]

/-- The screen value of a color. -/
def toRgb : Color → Rgb
  | white => ⟨0xFF, 0xFF, 0xFF⟩
  | black => ⟨0, 0, 0⟩
  | chromatic hue l =>
    match hue with
    | .red => ⟨l.strong, l.weak, l.weak⟩
    | .yellow => ⟨l.strong, l.strong, l.weak⟩
    | .green => ⟨l.weak, l.strong, l.weak⟩
    | .cyan => ⟨l.weak, l.strong, l.strong⟩
    | .blue => ⟨l.weak, l.weak, l.strong⟩
    | .magenta => ⟨l.strong, l.weak, l.strong⟩

/-- The legal color with a given screen value, if there is one. -/
def ofRgb? (rgb : Rgb) : Option Color :=
  all.find? (fun c => c.toRgb = rgb)

/-- Reading the screen value of a color gives the color back. -/
theorem ofRgb?_toRgb (c : Color) : ofRgb? c.toRgb = some c := by
  cases c with
  | chromatic h l => cases h <;> cases l <;> decide
  | white => decide
  | black => decide

/-- The written form of a color, `#RRGGBB`. -/
def hex (c : Color) : String := c.toRgb.hex

/-- The steps on the hue and lightness cycles between two chromatic
colors. White and black lie on neither cycle. -/
def stepsTo? : Color → Color → Option (Nat × Nat)
  | chromatic h l, chromatic h' l' => some (h.stepsTo h', l.stepsTo l')
  | _, _ => none

end Color

end EsoHost.Piet
