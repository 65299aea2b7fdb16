import EsoHost.Piet.Color

/-!
# `EsoHost.Piet.Instruction`: the instruction between two colors

Moving from one chromatic block to another executes an instruction,
chosen by the steps between the two colors on the hue and lightness
cycles. The table has six rows of three.
-/

set_option autoImplicit false

namespace EsoHost.Piet

/-- What a move between two chromatic blocks does. -/
inductive Instruction where
  | nop | push | pop
  | add | subtract | multiply
  | divide | mod | not
  | greater | pointer | switch
  | duplicate | roll | inNumber
  | inChar | outNumber | outChar
  deriving DecidableEq, Repr

namespace Instruction

/-- The instruction `hueSteps` down and `lightnessSteps` along the
table. Both counts wrap around their cycle. -/
def decode (hueSteps lightnessSteps : Nat) : Instruction :=
  match hueSteps % 6, lightnessSteps % 3 with
  | 0, 0 => nop
  | 0, 1 => push
  | 0, _ => pop
  | 1, 0 => add
  | 1, 1 => subtract
  | 1, _ => multiply
  | 2, 0 => divide
  | 2, 1 => mod
  | 2, _ => not
  | 3, 0 => greater
  | 3, 1 => pointer
  | 3, _ => switch
  | 4, 0 => duplicate
  | 4, 1 => roll
  | 4, _ => inNumber
  | _, 0 => inChar
  | _, 1 => outNumber
  | _, _ => outChar

/-- The instruction that a move from color `a` to color `b` executes.
A move to or from white or black executes none. -/
def between? (a b : Color) : Option Instruction :=
  (a.stepsTo? b).map fun (hueSteps, lightnessSteps) => decode hueSteps lightnessSteps

end Instruction

end EsoHost.Piet
