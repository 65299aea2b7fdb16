import EsoHost.Piet.Grid

/-!
# `EsoHost.Piet.Slide`: walking through white

White is crossed codel by codel. The pointer goes straight on; where
the border or a black codel blocks the way, it turns clockwise on the
spot and its chooser changes sides. The walk ends on the first colored
codel. What comes next depends on the stance alone, so a walk that
takes a stance for the second time never ends; `slide` stops it there.

A grid has eight stances for each codel, so a walk of more steps than
that repeats one.
-/

set_option autoImplicit false

namespace EsoHost.Piet

/-- A place together with a heading. -/
structure Stance where
  codel : Codel
  heading : Heading
  deriving DecidableEq, Repr

/-- One step of a walk through white. -/
inductive Stride where
  /-- The walk goes on from here. -/
  | on (s : Stance)
  /-- A colored codel is reached. -/
  | landed (s : Stance)
  deriving DecidableEq, Repr

/-- The step that follows a stance. -/
def Stance.stride (g : Grid) (s : Stance) : Stride :=
  match g.step s.codel s.heading.dp with
  | none => .on { s with heading := s.heading.bounced }
  | some ahead =>
    match g.get? ahead with
    | none | some .black => .on { s with heading := s.heading.bounced }
    | some .white => .on { s with codel := ahead }
    | some (.chromatic ..) => .landed { s with codel := ahead }

/-- How a slide ends. -/
inductive Landing where
  /-- On a colored codel. -/
  | colored (s : Stance)
  /-- Nowhere: `s` is the first stance that comes up again. -/
  | trapped (s : Stance)
  deriving DecidableEq, Repr

/-- Walks on from `s` for at most `strides` steps. The stances in
`seen` were taken before. -/
def slideFrom (g : Grid) : (strides : Nat) → (seen : List Stance) → Stance → Landing
  | 0, _, s => .trapped s
  | strides + 1, seen, s =>
    if s ∈ seen then .trapped s
    else
      match s.stride g with
      | .landed s' => .colored s'
      | .on s' => slideFrom g strides (s :: seen) s'

/-- Walks through white from `s`. There are eight stances for each
codel, so one more step than that is as good as no bound. -/
def slide (g : Grid) (s : Stance) : Landing := slideFrom g (8 * g.size + 1) [] s

end EsoHost.Piet
