/-!
# `EsoHost.Piet.Stack`: the operand stack

No operation on the stack fails. Popping an empty stack gives zero
where a value is needed, and a roll that asks for more values than
there are does nothing.
-/

set_option autoImplicit false

namespace EsoHost.Piet

/-- A stack of words. -/
structure Stack where
  /-- The values from the top down. -/
  values : List Int64
  deriving DecidableEq, Repr

namespace Stack

/-- The empty stack. -/
def empty : Stack := ⟨[]⟩

/-- The stack with the given values, the last one on top. -/
def ofBottomUp (values : List Int64) : Stack := ⟨values.reverse⟩

/-- The values from the bottom up. -/
def bottomUp (s : Stack) : List Int64 := s.values.reverse

/-- The number of values. -/
def size (s : Stack) : Nat := s.values.length

/-- Puts a value on top. -/
def push (s : Stack) (v : Int64) : Stack := ⟨v :: s.values⟩

/-- A stack made from the bottom up reads the same from the bottom up.
-/
@[simp]
theorem bottomUp_ofBottomUp (values : List Int64) : (ofBottomUp values).bottomUp = values :=
  List.reverse_reverse values

/-- The top comes last. -/
@[simp]
theorem bottomUp_push (s : Stack) (v : Int64) : (s.push v).bottomUp = s.bottomUp ++ [v] :=
  List.reverse_cons

/-- Takes the top value, if there is one. -/
def pop? (s : Stack) : Option Int64 × Stack := (s.values.head?, ⟨s.values.tail⟩)

/-- Takes the top value; an empty stack gives zero. -/
def pop (s : Stack) : Int64 × Stack := (s.values.headD 0, ⟨s.values.tail⟩)

/-- Puts a copy of the top value on top. -/
def duplicate (s : Stack) : Stack :=
  match s.values with
  | [] => s
  | v :: vs => ⟨v :: v :: vs⟩

/-- Rotates the top `depth` values `count` times. One positive turn
takes the top value down to `depth` and lifts the others; a negative
count turns the other way. Nothing happens if `depth` is not positive
or more than there are values. -/
def roll (s : Stack) (depth count : Int64) : Stack :=
  let d := depth.toInt
  if 0 < d ∧ d ≤ s.values.length then
    let turns := (count.toInt % d).toNat
    ⟨(s.values.take d.toNat).rotateLeft turns ++ s.values.drop d.toNat⟩
  else
    s

/-- A roll keeps the number of values. -/
@[simp]
theorem size_roll (s : Stack) (depth count : Int64) : (s.roll depth count).size = s.size := by
  have hrotate : ∀ (l : List Int64) (n : Nat), (l.rotateLeft n).length = l.length := by
    intro l n
    simp only [List.rotateLeft]
    split
    · rfl
    · rw [List.length_append, List.length_drop, List.length_take]
      omega
  unfold roll
  by_cases h : 0 < depth.toInt ∧ depth.toInt ≤ s.values.length
  · simp only [if_pos h, size, List.length_append, hrotate]
    rw [← List.length_append, List.take_append_drop]
  · simp only [if_neg h]

/-- Takes the right operand, then the left one, and pushes the result
of `f`, if it has one. -/
def combine (s : Stack) (f : Int64 → Int64 → Option Int64) : Stack :=
  let (r, s) := s.pop
  let (l, s) := s.pop
  match f l r with
  | some v => s.push v
  | none => s

end Stack

end EsoHost.Piet
