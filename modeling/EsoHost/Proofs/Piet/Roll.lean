import Mathlib.Data.List.Rotate
import Mathlib.GroupTheory.Perm.Support
import EsoHost.Piet.Stack

/-!
# `EsoHost.Proofs.Piet.Roll`: a roll is so many single turns

A roll reduces its count to a remainder and rotates the window at the
top of the stack in one go. This module says what that means turn by
turn. One turn takes the top value of a window to its bottom (`turn`),
one turn back takes the bottom value to the top (`turnBack`), and a
count is that many turns one way or the other (`turns`).

Counts are exact integers here. A roll and the one after it add up to
their exact sum even where the sum of the words would wrap, so turning
is treated as a permutation of windows and counts as its powers
(`turning`, `turns_eq_zpow`). The remainder comes in at one place only:
as many turns as there are values change nothing (`turns_length`).
-/

set_option autoImplicit false

namespace EsoHost.Piet

/-! ### Turns -/

/-- One turn of a window, which lists its values from the top down: the
top value goes to the bottom, and this lifts the others. -/
def turn : List Int64 → List Int64
  | [] => []
  | top :: others => others ++ [top]

/-- One turn the other way: the bottom value goes to the top. -/
def turnBack (window : List Int64) : List Int64 :=
  match window.getLast? with
  | some bottom => bottom :: window.dropLast
  | none => []

/-- As many turns as `count` says, back if it is negative. -/
def turns : Int → List Int64 → List Int64
  | .ofNat n => turn^[n]
  | .negSucc n => turnBack^[n + 1]

/-- A turn is undone by one the other way. -/
theorem turnBack_turn (window : List Int64) : turnBack (turn window) = window := by
  cases window with
  | nil => rfl
  | cons top others => simp [turn, turnBack]

/-- And that one by a turn. -/
theorem turn_turnBack (window : List Int64) : turn (turnBack window) = window := by
  cases window using List.reverseRecOn with
  | nil => rfl
  | append_singleton others bottom => simp [turn, turnBack]

/-- Turning is a permutation of windows. -/
def turning : Equiv.Perm (List Int64) where
  toFun := turn
  invFun := turnBack
  left_inv := turnBack_turn
  right_inv := turn_turnBack

/-- Counts are powers. -/
theorem turns_eq_zpow (count : Int) (window : List Int64) :
    turns count window = (turning ^ count) window := by
  cases count with
  | ofNat n =>
    show turn^[n] window = (turning ^ (n : Int)) window
    rw [zpow_natCast, ← Equiv.Perm.iterate_eq_pow]
    rfl
  | negSucc n =>
    -- A negative power is a power of the inverse, and that turns back.
    show turnBack^[n + 1] window = (turning ^ Int.negSucc n) window
    rw [zpow_negSucc, ← inv_pow, ← Equiv.Perm.iterate_eq_pow]
    rfl

/-- Turns add up in exact integers. -/
theorem turns_add (m n : Int) (window : List Int64) :
    turns n (turns m window) = turns (m + n) window := by
  rw [turns_eq_zpow, turns_eq_zpow, turns_eq_zpow, Int.add_comm, zpow_add, Equiv.Perm.mul_apply]

/-- A turn is a rotation by one. -/
theorem turn_eq_rotate (window : List Int64) : turn window = window.rotate 1 := by
  cases window with
  | nil => rfl
  | cons top others => rw [List.rotate_cons_succ, List.rotate_zero, turn]

/-- So many turns are a rotation by so many. -/
theorem turns_natCast (n : Nat) (window : List Int64) : turns n window = window.rotate n := by
  show turn^[n] window = window.rotate n
  induction n with
  | zero => rw [List.rotate_zero, Function.iterate_zero_apply]
  | succ n ih => rw [Function.iterate_succ_apply', ih, turn_eq_rotate, List.rotate_rotate]

/-- As many turns as there are values bring every value back. -/
theorem turns_length (window : List Int64) : turns window.length window = window := by
  rw [turns_natCast, List.rotate_length]

/-- Only the remainder of the count matters. -/
theorem turns_emod (count : Int) (window : List Int64) :
    turns (count % window.length) window = turns count window := by
  have hround : (turning ^ (window.length : Int)) window = window := by
    rw [← turns_eq_zpow, turns_length]
  -- The count is whole rounds and the remainder. The rounds are made
  -- first, because `hround` is about this window only.
  have hrounds : turns (window.length * (count / window.length)) window = window := by
    rw [turns_eq_zpow, zpow_mul]
    exact Equiv.Perm.zpow_apply_eq_self_of_apply_eq_self hround _
  calc turns (count % window.length) window
      = turns (count % window.length)
          (turns (window.length * (count / window.length)) window) := by rw [hrounds]
    _ = turns count window := by rw [turns_add, Int.mul_ediv_add_emod]

/-- No number of turns loses a value. -/
theorem perm_turns (count : Int) (window : List Int64) : (turns count window).Perm window := by
  by_cases hempty : window = []
  · subst hempty
    -- An empty window stays empty, whatever the count.
    have hstays : turns count [] = [] := by
      rw [turns_eq_zpow]
      exact Equiv.Perm.zpow_apply_eq_self_of_apply_eq_self (f := turning) rfl count
    rw [hstays]
  · have hpos : 0 < (window.length : Int) := by
      exact_mod_cast List.length_pos_of_ne_nil hempty
    obtain ⟨n, hn⟩ := Int.eq_ofNat_of_zero_le (Int.emod_nonneg count (Int.ne_of_gt hpos))
    rw [← turns_emod, hn, turns_natCast]
    exact List.rotate_perm window n

/-- The rotation that a roll makes is so many turns. -/
theorem rotateLeft_eq_turns (window : List Int64) (n : Nat) :
    window.rotateLeft n = turns n window := by
  rw [turns_natCast, List.rotate_eq_drop_append_take_mod, List.rotateLeft]
  split
  · rename_i hshort
    -- With one value or none, both sides are the window itself.
    cases window with
    | nil => simp
    | cons top others =>
      cases others with
      | nil => simp [Nat.mod_one]
      | cons => simp at hshort
  · rfl

/-! ### Rolls -/

/-- The least word is the only one that has no opposite. -/
theorem toInt_neg_of_ne {count : Int64} (h : count ≠ Int64.minValue) :
    (-count).toInt = -count.toInt := by
  have hne : count.toInt ≠ -2 ^ 63 := fun heq => h (Int64.toInt_inj.mp heq)
  have hge := count.le_toInt
  have hlt := count.toInt_lt
  rw [Int64.toInt_neg, Int.bmod_eq_of_le (by omega) (by omega)]

namespace Stack

variable {s : Stack} {depth : Int64}

/-- A roll deeper than the stack, or not deep at all, does nothing. -/
theorem roll_of_out_of_range (h : depth.toInt ≤ 0 ∨ s.size < depth.toInt) (count : Int64) :
    s.roll depth count = s := by
  unfold roll
  rw [if_neg (by unfold size at h; omega)]

/-- A roll turns its window and leaves what is below. -/
theorem values_roll {window below : List Int64} (hvalues : s.values = window ++ below)
    (hpos : 0 < depth.toInt) (hdepth : window.length = depth.toInt) (count : Int64) :
    (s.roll depth count).values = turns count.toInt window ++ below := by
  -- The count is reduced by the depth, which is the length of the window.
  have hlength : depth.toInt.toNat = window.length := by omega
  have hturns : ((count.toInt % depth.toInt).toNat : Int) = count.toInt % window.length := by
    rw [Int.toNat_of_nonneg (Int.emod_nonneg _ (Int.ne_of_gt hpos)), hdepth]
  unfold roll
  rw [if_pos ⟨hpos, by rw [hvalues, List.length_append]; omega⟩]
  show (s.values.take _).rotateLeft _ ++ s.values.drop _ = _
  rw [hvalues, hlength, List.take_left, List.drop_left, rotateLeft_eq_turns, hturns, turns_emod]

/-- Two rolls to the same depth turn the window by the exact sum of
their counts. -/
theorem values_roll_roll {window below : List Int64} (hvalues : s.values = window ++ below)
    (hpos : 0 < depth.toInt) (hdepth : window.length = depth.toInt) (a b : Int64) :
    ((s.roll depth a).roll depth b).values = turns (a.toInt + b.toInt) window ++ below := by
  -- The first roll leaves a window of the same depth for the second.
  have hlength : ((turns a.toInt window).length : Int) = depth.toInt := by
    rw [(perm_turns _ _).length_eq, hdepth]
  rw [values_roll (values_roll hvalues hpos hdepth a) hpos hlength, turns_add]

/-- A depth is out of range, or there is a window of that depth. -/
theorem window_cases (s : Stack) (depth : Int64) :
    (depth.toInt ≤ 0 ∨ s.size < depth.toInt) ∨
      0 < depth.toInt ∧ ∃ window below, s.values = window ++ below ∧
        (window.length : Int) = depth.toInt := by
  by_cases hrange : depth.toInt ≤ 0 ∨ s.size < depth.toInt
  · exact Or.inl hrange
  · refine Or.inr ⟨by omega, s.values.take depth.toInt.toNat, s.values.drop depth.toInt.toNat,
      (List.take_append_drop _ _).symm, ?_⟩
    unfold size at hrange
    rw [List.length_take]
    omega

/-- No roll loses a value. -/
theorem perm_roll (s : Stack) (depth count : Int64) :
    (s.roll depth count).values.Perm s.values := by
  rcases s.window_cases depth with hrange | ⟨hpos, window, below, hvalues, hdepth⟩
  · rw [roll_of_out_of_range hrange]
  · rw [values_roll hvalues hpos hdepth, hvalues]
    exact (perm_turns _ _).append_right below

/-- A roll is undone by the opposite one. -/
theorem roll_roll_neg {count : Int64} (h : count ≠ Int64.minValue) :
    (s.roll depth count).roll depth (-count) = s := by
  rcases s.window_cases depth with hrange | ⟨hpos, window, below, hvalues, hdepth⟩
  · rw [roll_of_out_of_range hrange, roll_of_out_of_range hrange]
  · have hback := values_roll_roll hvalues hpos hdepth count (-count)
    rw [toInt_neg_of_ne h, Int.add_right_neg] at hback
    exact congrArg Stack.mk (hback.trans hvalues.symm)

-- The opposite of the least word is the least word itself, and two
-- equal rolls need not cancel.
example : ((Stack.mk [3, 2, 1]).roll 3 Int64.minValue).roll 3 (-Int64.minValue)
    = ⟨[1, 3, 2]⟩ := by decide

end Stack

/-- A roll out of range changes nothing. Any other roll turns the window
at the top of the stack, and nothing else, by as many single turns as
its count says; and a second roll adds its count to the first one's, as
exact integers. So no value is lost, and every roll is undone by the
opposite one, if its count has an opposite. -/
theorem roll_makes_single_turns (s : Stack) (depth : Int64) :
    (depth.toInt ≤ 0 ∨ s.size < depth.toInt → ∀ count, s.roll depth count = s) ∧
    (0 < depth.toInt → depth.toInt ≤ s.size →
      ∃ window below, s.values = window ++ below ∧ (window.length : Int) = depth.toInt ∧
        (∀ count, (s.roll depth count).values = turns count.toInt window ++ below) ∧
        ∀ a b, ((s.roll depth a).roll depth b).values
          = turns (a.toInt + b.toInt) window ++ below) ∧
    (∀ count, (s.roll depth count).values.Perm s.values) ∧
    ∀ count, count ≠ Int64.minValue → (s.roll depth count).roll depth (-count) = s := by
  refine ⟨Stack.roll_of_out_of_range, ?_, s.perm_roll depth, fun _ => Stack.roll_roll_neg⟩
  intro hpos hle
  rcases s.window_cases depth with hrange | ⟨-, window, below, hvalues, hdepth⟩
  · omega
  · exact ⟨window, below, hvalues, hdepth, Stack.values_roll hvalues hpos hdepth,
      Stack.values_roll_roll hvalues hpos hdepth⟩

/-- Of four values, three are turned, by counts whose sum is no word. -/
theorem roll_turns_three_of_four :
    (Stack.mk [4, 3, 2, 1]).roll 5 1 = ⟨[4, 3, 2, 1]⟩ ∧
    (((Stack.mk [4, 3, 2, 1]).roll 3 Int64.maxValue).roll 3 2).values
      = turns (2 ^ 63 + 1) [4, 3, 2] ++ [1] ∧
    ((Stack.mk [4, 3, 2, 1]).roll 3 Int64.maxValue).values.Perm [4, 3, 2, 1] ∧
    ((Stack.mk [4, 3, 2, 1]).roll 3 Int64.maxValue).roll 3 (-Int64.maxValue)
      = ⟨[4, 3, 2, 1]⟩ := by
  obtain ⟨hout, -⟩ := roll_makes_single_turns ⟨[4, 3, 2, 1]⟩ 5
  obtain ⟨-, hin, hperm, hback⟩ := roll_makes_single_turns ⟨[4, 3, 2, 1]⟩ 3
  obtain ⟨window, below, hvalues, hdepth, -, hsum⟩ := hin (by decide) (by decide)
  have hlength : 3 = window.length := Int.ofNat.inj hdepth.symm
  have hsplit : [4, 3, 2] ++ [1] = window ++ below := hvalues
  obtain ⟨rfl, rfl⟩ := List.append_inj hsplit hlength
  exact ⟨hout (by decide) 1, hsum Int64.maxValue 2, hperm Int64.maxValue,
    hback Int64.maxValue (by decide)⟩

end EsoHost.Piet
