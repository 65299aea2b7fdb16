import Mathlib.Data.Rat.Floor
import Mathlib.Tactic.Linarith
import EsoHost.Piet.Word

/-!
# `EsoHost.Proofs.Piet.Division`: words are divided as numbers are

The division of words rounds towards zero. `Word.floorDiv?` and
`Word.floorMod?` correct what it gives so that it rounds down. This
module compares them with the floor of the exact quotient, a rational
number, and shows that the corrections, which are plain additions of
words, never overflow.

* `Within b m`: the remainder `m` lies between zero and the divisor `b`,
  and does not reach it. Such a remainder belongs to the floor and to no
  other quotient (`floor_eq_of_within`), so that nothing else has to be
  said about rounding.
* `within_tmod` and `within_tmod_add`: the remainder of rounding towards
  zero is of this kind, or becomes so when the divisor is added once.
  Which of the two holds depends on the signs alone.
* `Word.quotient_small_of_rounded_up`: a quotient needs a correction only
  if the divisor is two or more, in size, and is then far too small to
  overflow.
* `division_rounds_down` puts these together.
-/

set_option autoImplicit false

namespace EsoHost.Piet

/-! ### Exact quotients -/

section Exact

variable {a b q : Int}

/-- The remainder lies between zero and the divisor, which it does not
reach. -/
def Within (b m : Int) : Prop := 0 ≤ m ∧ m < b ∨ b < m ∧ m ≤ 0

/-- The floor is the quotient that leaves such a remainder. -/
theorem floor_eq_of_within (h : Within b (a - b * q)) : ⌊(a : ℚ) / b⌋ = q := by
  -- Dividing by `b` leaves `q` and a fraction between zero and one,
  -- whichever sign `b` has.
  have hsplit : (a : ℚ) = b * q + (a - b * q : Int) := by
    push_cast
    ring
  rw [Int.floor_eq_iff]
  rcases h with ⟨hnonneg, hlt⟩ | ⟨hlt, hnonpos⟩
  · have hb : (0 : ℚ) < b := by exact_mod_cast Int.lt_of_le_of_lt hnonneg hlt
    have hnonneg : (0 : ℚ) ≤ (a - b * q : Int) := by exact_mod_cast hnonneg
    have hlt : ((a - b * q : Int) : ℚ) < b := by exact_mod_cast hlt
    rw [le_div_iff₀ hb, div_lt_iff₀ hb]
    constructor <;> linarith
  · -- Multiplying by a negative divisor turns both inequalities round.
    have hb : (b : ℚ) < 0 := by exact_mod_cast Int.lt_of_lt_of_le hlt hnonpos
    have hnonpos : ((a - b * q : Int) : ℚ) ≤ 0 := by exact_mod_cast hnonpos
    have hlt : (b : ℚ) < (a - b * q : Int) := by exact_mod_cast hlt
    rw [le_div_iff_of_neg hb, div_lt_iff_of_neg hb]
    constructor <;> linarith

/-- A remainder of this kind is zero or has the sign of the divisor, and
is smaller than it. -/
theorem Within.sign_and_size {m : Int} (h : Within b m) :
    (m = 0 ∨ m.sign = b.sign) ∧ m.natAbs < b.natAbs := by
  rcases h with ⟨hnonneg, hlt⟩ | ⟨hlt, hnonpos⟩
  · refine ⟨?_, by omega⟩
    rcases hnonneg.eq_or_lt with hzero | hpos
    · exact Or.inl hzero.symm
    · exact Or.inr (by rw [Int.sign_eq_one_of_pos hpos, Int.sign_eq_one_of_pos (by omega)])
  · refine ⟨?_, by omega⟩
    rcases hnonpos.eq_or_lt with hzero | hneg
    · exact Or.inl hzero
    · exact Or.inr (by
        rw [Int.sign_eq_neg_one_of_neg hneg, Int.sign_eq_neg_one_of_neg (by omega)])

/-- Rounding towards zero leaves a remainder on the side of the dividend,
smaller than the divisor. -/
theorem tmod_bounds (a : Int) (hb : b ≠ 0) :
    (0 ≤ a → 0 ≤ a.tmod b) ∧ (a < 0 → a.tmod b ≤ 0) ∧ (a.tmod b).natAbs < b.natAbs := by
  refine ⟨Int.tmod_nonneg b, fun ha => ?_, ?_⟩
  · have hneg := Int.tmod_nonneg b (Int.neg_nonneg_of_nonpos ha.le)
    rw [Int.neg_tmod] at hneg
    omega
  · rw [Int.natAbs_tmod]
    exact Nat.mod_lt _ (by omega)

/-- The remainder needs no correction if it is zero, or on the side of
the divisor. -/
theorem within_tmod (hb : b ≠ 0) (h : ¬ (a.tmod b ≠ 0 ∧ ¬ (a < 0 ↔ b < 0))) :
    Within b (a.tmod b) := by
  obtain ⟨hnonneg, hnonpos, hsize⟩ := tmod_bounds a hb
  unfold Within
  omega

/-- Any other is on the far side of zero, and the divisor brings it
back. -/
theorem within_tmod_add (hb : b ≠ 0) (h : a.tmod b ≠ 0 ∧ ¬ (a < 0 ↔ b < 0)) :
    Within b (a.tmod b + b) := by
  obtain ⟨hnonneg, hnonpos, hsize⟩ := tmod_bounds a hb
  unfold Within
  omega

/-- It makes no difference whether the signs are compared before or after
the division. -/
theorem tmod_neg_iff (hb : b ≠ 0) (h : a.tmod b ≠ 0) : a.tmod b < 0 ↔ a < 0 := by
  obtain ⟨hnonneg, hnonpos, -⟩ := tmod_bounds a hb
  omega

/-- Rounding towards zero has rounded down if the remainder needs no
correction. -/
theorem floor_eq_tdiv (hb : b ≠ 0) (h : ¬ (a.tmod b ≠ 0 ∧ ¬ (a < 0 ↔ b < 0))) :
    ⌊(a : ℚ) / b⌋ = a.tdiv b := by
  refine floor_eq_of_within ?_
  rw [← Int.tmod_def]
  exact within_tmod hb h

/-- One less in the quotient is one divisor more in the remainder. -/
theorem sub_mul_tdiv_sub_one (a b : Int) : a - b * (a.tdiv b - 1) = a.tmod b + b := by
  rw [Int.tmod_def, Int.mul_sub]
  omega

/-- Else it has rounded up, by one. -/
theorem floor_eq_tdiv_sub_one (hb : b ≠ 0) (h : a.tmod b ≠ 0 ∧ ¬ (a < 0 ↔ b < 0)) :
    ⌊(a : ℚ) / b⌋ = a.tdiv b - 1 := by
  refine floor_eq_of_within ?_
  rw [sub_mul_tdiv_sub_one]
  exact within_tmod_add hb h

end Exact

/-! ### Quotients of words -/

namespace Word

variable {l r : Int64}

/-- Only the word zero stands for zero. -/
theorem toInt_ne_zero (h : r ≠ 0) : r.toInt ≠ 0 :=
  fun hzero => h (Int64.toInt_inj.mp hzero)

/-- Whether the division of words has rounded up is decided as for
numbers. -/
theorem rounded_up_iff (l r : Int64) :
    (l % r ≠ 0 ∧ ¬ (l < 0 ↔ r < 0)) ↔
      (l.toInt.tmod r.toInt ≠ 0 ∧ ¬ (l.toInt < 0 ↔ r.toInt < 0)) := by
  rw [Int64.lt_iff_toInt_lt, Int64.lt_iff_toInt_lt, ← Int64.toInt_mod, Int64.toInt_zero]
  simp [← Int64.toInt_inj]

/-- The remainder shows it as well as the dividend. -/
theorem mod_rounded_up_iff (h : r ≠ 0) :
    (l % r ≠ 0 ∧ ¬ (l % r < 0 ↔ r < 0)) ↔ (l % r ≠ 0 ∧ ¬ (l < 0 ↔ r < 0)) := by
  have hsame : l % r ≠ 0 → (l % r < 0 ↔ l < 0) := by
    intro hrest
    have hrest := toInt_ne_zero hrest
    rw [Int64.toInt_mod] at hrest
    rw [Int64.lt_iff_toInt_lt, Int64.lt_iff_toInt_lt, Int64.toInt_mod, Int64.toInt_zero]
    exact tmod_neg_iff (toInt_ne_zero h) hrest
  constructor
  · rintro ⟨hrest, hsigns⟩
    rw [hsame hrest] at hsigns
    exact ⟨hrest, hsigns⟩
  · rintro ⟨hrest, hsigns⟩
    rw [← hsame hrest] at hsigns
    exact ⟨hrest, hsigns⟩

section RoundedUp

variable (hr : r ≠ 0) (h : l % r ≠ 0 ∧ ¬ (l < 0 ↔ r < 0))

include hr h

/-- A quotient that was rounded is at most half of the dividend, in
size. The divisor cannot be one or minus one, for these leave no
remainder. -/
theorem quotient_small_of_rounded_up :
    (l / r).toInt = l.toInt.tdiv r.toInt ∧ (l.toInt.tdiv r.toInt).natAbs ≤ 2 ^ 62 := by
  obtain ⟨hrest, -⟩ := (rounded_up_iff l r).mp h
  have hzero := toInt_ne_zero hr
  have hsize : 2 ≤ r.toInt.natAbs := by
    by_contra hsmall
    have hone : r.toInt.natAbs = 1 := by omega
    have hdvd : r.toInt ∣ l.toInt := Int.natAbs_dvd.mp (by rw [hone]; exact one_dvd _)
    exact hrest (Int.tmod_eq_zero_of_dvd hdvd)
  refine ⟨Int64.toInt_div_of_ne_right l r ?_, ?_⟩
  · rintro rfl
    exact absurd hsize (by decide)
  · have hle := l.le_toInt
    have hlt := l.toInt_lt
    calc (l.toInt.tdiv r.toInt).natAbs = l.toInt.natAbs / r.toInt.natAbs := Int.natAbs_tdiv _ _
      _ ≤ l.toInt.natAbs / 2 := Nat.div_le_div_left hsize (by decide)
      _ ≤ 2 ^ 62 := by omega

/-- The correction of the quotient does not overflow. -/
theorem toInt_div_sub_one : (l / r - 1).toInt = (l / r).toInt - 1 := by
  obtain ⟨hquotient, hsmall⟩ := quotient_small_of_rounded_up hr h
  rw [Int64.toInt_sub, hquotient, Int64.toInt_one]
  exact Int.bmod_eq_of_le (by omega) (by omega)

/-- It gives the floor. -/
theorem floor_eq_toInt_div_sub_one : ⌊(l.toInt : ℚ) / r.toInt⌋ = (l / r - 1).toInt := by
  rw [toInt_div_sub_one hr h, (quotient_small_of_rounded_up hr h).1]
  exact floor_eq_tdiv_sub_one (toInt_ne_zero hr) ((rounded_up_iff l r).mp h)

/-- The correction of the remainder does not overflow either: it has the
other sign than the divisor. -/
theorem toInt_mod_add : (l % r + r).toInt = (l % r).toInt + r.toInt := by
  have hwithin := within_tmod_add (toInt_ne_zero hr) ((rounded_up_iff l r).mp h)
  have hle := r.le_toInt
  have hlt := r.toInt_lt
  rw [Int64.toInt_add, Int64.toInt_mod]
  unfold Within at hwithin
  exact Int.bmod_eq_of_le (by omega) (by omega)

end RoundedUp

/-- The quotient is the floor, as a word. -/
theorem floorDiv?_eq_floor (hr : r ≠ 0) :
    floorDiv? l r = some (.ofInt ⌊(l.toInt : ℚ) / r.toInt⌋) := by
  have hzero := toInt_ne_zero hr
  rw [floorDiv?, if_neg hr]
  split
  · rename_i hup
    rw [floor_eq_toInt_div_sub_one hr hup, Int64.ofInt_toInt]
  · rename_i hdown
    rw [rounded_up_iff] at hdown
    rw [floor_eq_tdiv hzero hdown]
    exact congrArg some (Int64.toInt_inj.mp ((Int64.toInt_div l r).trans Int64.toInt_ofInt.symm))

/-- The floor is a word for all operands but one pair. -/
theorem toInt_ofInt_floor_iff (hr : r ≠ 0) :
    (Int64.ofInt ⌊(l.toInt : ℚ) / r.toInt⌋).toInt = ⌊(l.toInt : ℚ) / r.toInt⌋ ↔
      ¬ (l = .minValue ∧ r = -1) := by
  have hzero := toInt_ne_zero hr
  constructor
  · rintro hfits ⟨rfl, rfl⟩
    rw [floor_eq_tdiv hzero (by decide)] at hfits
    exact absurd hfits (by decide)
  · intro hpair
    by_cases hup : l % r ≠ 0 ∧ ¬ (l < 0 ↔ r < 0)
    · rw [floor_eq_toInt_div_sub_one hr hup, Int64.ofInt_toInt]
    · have hquotient : (l / r).toInt = l.toInt.tdiv r.toInt := by
        -- The quotient of words wraps for one pair only, and it is enough that
        -- one of the two words is another.
        by_cases hleft : l = .minValue
        · exact Int64.toInt_div_of_ne_right l r fun hright => hpair ⟨hleft, hright⟩
        · exact Int64.toInt_div_of_ne_left l r hleft
      rw [rounded_up_iff] at hup
      rw [floor_eq_tdiv hzero hup, ← hquotient, Int64.ofInt_toInt]

/-- The remainder is that of the floor, and no word is lost. -/
theorem floorMod?_eq_floor (hr : r ≠ 0) :
    ∃ m, floorMod? l r = some m ∧
      m.toInt = l.toInt - r.toInt * ⌊(l.toInt : ℚ) / r.toInt⌋ ∧ Within r.toInt m.toInt := by
  have hzero := toInt_ne_zero hr
  rw [floorMod?, if_neg hr]
  split
  · rename_i hup
    rw [mod_rounded_up_iff hr] at hup
    have hexact := (rounded_up_iff l r).mp hup
    refine ⟨_, rfl, ?_⟩
    rw [toInt_mod_add hr hup, Int64.toInt_mod, floor_eq_tdiv_sub_one hzero hexact,
      sub_mul_tdiv_sub_one]
    exact ⟨rfl, within_tmod_add hzero hexact⟩
  · rename_i hdown
    rw [mod_rounded_up_iff hr, rounded_up_iff] at hdown
    refine ⟨_, rfl, ?_⟩
    rw [Int64.toInt_mod, floor_eq_tdiv hzero hdown]
    exact ⟨Int.tmod_def _ _, within_tmod hzero hdown⟩

end Word

/-- Division rounds down. For every divisor but zero, the quotient is the
floor of the exact quotient as a 64-bit word, and the floor itself
unless the least word is divided by minus one, which gives the least
word. The remainder is exactly what the floor leaves, so it is zero or
has the sign of the divisor, and is smaller than it. Together they make
up the dividend again, modulo 2^64. Neither correction overflows. -/
theorem division_rounds_down (l r : Int64) (hr : r ≠ 0) :
    ∃ q m, Word.floorDiv? l r = some q ∧ Word.floorMod? l r = some m ∧
      q = .ofInt ⌊(l.toInt : ℚ) / r.toInt⌋ ∧
      (q.toInt = ⌊(l.toInt : ℚ) / r.toInt⌋ ↔ ¬ (l = .minValue ∧ r = -1)) ∧
      (l = .minValue → r = -1 → q = .minValue) ∧
      m.toInt = l.toInt - r.toInt * ⌊(l.toInt : ℚ) / r.toInt⌋ ∧
      (m = 0 ∨ m.toInt.sign = r.toInt.sign) ∧ m.toInt.natAbs < r.toInt.natAbs ∧
      l = r * q + m ∧
      (l % r ≠ 0 → ¬ (l < 0 ↔ r < 0) → (l / r - 1).toInt = (l / r).toInt - 1) ∧
      (l % r ≠ 0 → ¬ (l % r < 0 ↔ r < 0) → (l % r + r).toInt = (l % r).toInt + r.toInt) := by
  obtain ⟨m, hmod, hexact, hwithin⟩ := Word.floorMod?_eq_floor (l := l) hr
  obtain ⟨hsign, hsize⟩ := hwithin.sign_and_size
  refine ⟨_, m, Word.floorDiv?_eq_floor hr, hmod, rfl, Word.toInt_ofInt_floor_iff hr, ?_, hexact,
    hsign.imp_left fun hzero => Int64.toInt_inj.mp hzero, hsize, ?_, ?_, ?_⟩
  · rintro rfl rfl
    have hquotient := Word.floorDiv?_eq_floor (l := .minValue) hr
    exact (Option.some.inj hquotient).symm
  · -- The exact equation holds for the floor; read in words it holds for
    -- its word, even where that has wrapped.
    have hsum : l.toInt = r.toInt * ⌊(l.toInt : ℚ) / r.toInt⌋ + m.toInt := by omega
    calc l = .ofInt (r.toInt * ⌊(l.toInt : ℚ) / r.toInt⌋ + m.toInt) := by
          rw [← hsum, Int64.ofInt_toInt]
      _ = r * .ofInt ⌊(l.toInt : ℚ) / r.toInt⌋ + m := by
          rw [Int64.ofInt_add, Int64.ofInt_mul, Int64.ofInt_toInt, Int64.ofInt_toInt]
  · exact fun hrest hsigns => Word.toInt_div_sub_one hr ⟨hrest, hsigns⟩
  · exact fun hrest hsigns =>
      Word.toInt_mod_add hr ((Word.mod_rounded_up_iff hr).mp ⟨hrest, hsigns⟩)

/-- The least word is divided by ten, and both results are corrected. -/
theorem least_word_by_ten_rounds_down :
    (10 : Int64) ≠ 0 ∧
    Word.floorDiv? .minValue 10 = some (-922337203685477581) ∧
    (-922337203685477581 : Int64).toInt = ⌊(Int64.minValue.toInt : ℚ) / (10 : Int64).toInt⌋ ∧
    Word.floorMod? .minValue 10 = some 2 ∧ (2 : Int64).toInt.sign = (10 : Int64).toInt.sign ∧
    Int64.minValue = 10 * (-922337203685477581) + 2 := by
  obtain ⟨q, m, hdiv, hmod, -, hexact, -, -, hsign, -, hsum, -, -⟩ :=
    division_rounds_down .minValue 10 (by decide)
  obtain rfl : -922337203685477581 = q := Option.some.inj hdiv
  obtain rfl : 2 = m := Option.some.inj hmod
  exact ⟨by decide, hdiv, hexact.mpr (by decide), hmod, hsign.resolve_left (by decide), hsum⟩

end EsoHost.Piet
