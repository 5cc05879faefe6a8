import Mathlib.Data.Int.Log
import Mathlib.Data.Rat.Floor
import Mathlib.Tactic.FieldSimp
import Mathlib.Tactic.Linarith
import Mathlib.Tactic.Positivity
import Mathlib.Tactic.Ring

/-!
# Binary64 on the rationals

The value of a `double` is a rational, and an operation on doubles is the operation on
rationals followed by a rounding, to the nearest double and of two that are as near to the even
one.  `rnd` is that rounding, subnormal numbers included; what overflows is left to the reader
of the value, as the conversions to integer types do.

Rounding is monotone, which is a statement about the scale too: two numbers are rounded to
multiples of different powers of two if there is a power of two between them, and both are on the
right side of it when they are rounded.

## Main definitions

* `roundEven` — to the nearest integer.
* `exponent`, `rnd` — to the nearest double.
* `truncate` — toward zero, as a conversion to an integer does.
-/

namespace Papper.Binary64

variable {x y : ℚ}

/-! ## To an integer -/

/-- The nearest integer, and of two the even one. -/
def roundEven (x : ℚ) : ℤ :=
  if x - ⌊x⌋ < 1 / 2 then ⌊x⌋
  else if 1 / 2 < x - ⌊x⌋ then ⌊x⌋ + 1
  else if Even ⌊x⌋ then ⌊x⌋ else ⌊x⌋ + 1

theorem floor_le_roundEven (x : ℚ) : ⌊x⌋ ≤ roundEven x := by
  unfold roundEven
  split_ifs <;> omega

theorem roundEven_le (x : ℚ) : roundEven x ≤ ⌊x⌋ + 1 := by
  unfold roundEven
  split_ifs <;> omega

@[simp] theorem roundEven_intCast (n : ℤ) : roundEven (n : ℚ) = n := by
  simp [roundEven]

theorem abs_roundEven_sub_le (x : ℚ) : |roundEven x - x| ≤ 1 / 2 := by
  have hle := Int.floor_le x
  have hlt := Int.lt_floor_add_one x
  rw [abs_le]
  unfold roundEven
  split_ifs <;> push_cast <;> constructor <;> linarith

theorem roundEven_mono (h : x ≤ y) : roundEven x ≤ roundEven y := by
  have hfloor := Int.floor_le_floor h
  rcases hfloor.lt_or_eq with hlt | heq
  · have hx := roundEven_le x
    have hy := floor_le_roundEven y
    omega
  · -- the same integer part: the fractions decide
    unfold roundEven
    rw [← heq]
    split_ifs <;> first | omega | (exfalso; linarith)

/-! ## To a double -/

/-- The last place of a double near `x`, as an exponent of two. -/
def exponent (x : ℚ) : ℤ := if x = 0 then -1074 else max (Int.log 2 |x| - 52) (-1074)

/-- The nearest double. -/
def rnd (x : ℚ) : ℚ := roundEven (x / 2 ^ exponent x) * 2 ^ exponent x

theorem two_zpow_pos (e : ℤ) : (0 : ℚ) < 2 ^ e := zpow_pos two_pos e

@[simp] theorem rnd_zero : rnd 0 = 0 := by
  have hzero : roundEven 0 = 0 := by simpa using roundEven_intCast 0
  simp [rnd, hzero]

theorem exponent_ge (x : ℚ) : -1074 ≤ exponent x := by
  unfold exponent
  split_ifs
  · exact le_rfl
  · exact le_max_right _ _

/-- A multiple of the last place of `x` or of a greater one, as a multiple of the last place. -/
theorem mul_zpow_eq {e : ℤ} (n : ℤ) (h : exponent x ≤ e) :
    ∃ m : ℤ, (n : ℚ) * 2 ^ e = m * 2 ^ exponent x := by
  obtain ⟨d, rfl⟩ := Int.exists_add_of_le h
  refine ⟨n * 2 ^ d, ?_⟩
  rw [zpow_add₀ two_ne_zero, zpow_natCast]
  push_cast
  ring

/-- What is at most such a multiple is rounded to at most that. -/
theorem rnd_le_of_le {e n : ℤ} (h : exponent x ≤ e) (hx : x ≤ n * 2 ^ e) : rnd x ≤ n * 2 ^ e := by
  obtain ⟨m, hm⟩ := mul_zpow_eq n h
  rw [hm] at hx ⊢
  have hquot : x / 2 ^ exponent x ≤ m := (div_le_iff₀ (two_zpow_pos _)).mpr hx
  have hround : roundEven (x / 2 ^ exponent x) ≤ m := by
    simpa using roundEven_mono hquot
  exact mul_le_mul_of_nonneg_right (by exact_mod_cast hround) (two_zpow_pos _).le

theorem le_rnd_of_le {e n : ℤ} (h : exponent x ≤ e) (hx : n * 2 ^ e ≤ x) : n * 2 ^ e ≤ rnd x := by
  obtain ⟨m, hm⟩ := mul_zpow_eq n h
  rw [hm] at hx ⊢
  have hquot : m ≤ x / 2 ^ exponent x := (le_div_iff₀ (two_zpow_pos _)).mpr hx
  have hround : m ≤ roundEven (x / 2 ^ exponent x) := by
    simpa using roundEven_mono hquot
  exact mul_le_mul_of_nonneg_right (by exact_mod_cast hround) (two_zpow_pos _).le

/-- Between two numbers of different last places there is a power of two. -/
theorem exists_between_of_exponent_lt (h : exponent x < exponent y) :
    |x| < 2 ^ (52 : ℕ) * 2 ^ exponent y ∧ 2 ^ (52 : ℕ) * 2 ^ exponent y ≤ |y| := by
  have hy : y ≠ 0 := by
    rintro rfl
    exact absurd h (by simpa [exponent] using exponent_ge x)
  have hlog : exponent y = Int.log 2 |y| - 52 := by
    have hmax : exponent y = max (Int.log 2 |y| - 52) (-1074) := if_neg hy
    have hx := exponent_ge x
    omega
  have hpow : (2 : ℚ) ^ (52 : ℕ) * 2 ^ exponent y = 2 ^ Int.log 2 |y| := by
    rw [← zpow_natCast, ← zpow_add₀ two_ne_zero, hlog]
    congr 1
    omega
  rw [hpow]
  constructor
  · by_cases hx : x = 0
    · rw [hx, abs_zero]
      exact two_zpow_pos _
    · have hmax : exponent x = max (Int.log 2 |x| - 52) (-1074) := if_neg hx
      exact_mod_cast (Int.lt_zpow_iff_log_lt (b := 2) one_lt_two (abs_pos.mpr hx)).mpr (by omega)
  · exact_mod_cast Int.zpow_log_le_self (b := 2) one_lt_two (abs_pos.mpr hy)

/-- **Rounding is monotone.** -/
theorem rnd_mono (h : x ≤ y) : rnd x ≤ rnd y := by
  rcases lt_trichotomy (exponent x) (exponent y) with hlt | heq | hgt
  · -- the power of two is above `x`, so it is not above `y` for being negative
    obtain ⟨hx, hy⟩ := exists_between_of_exponent_lt hlt
    have hpos : 2 ^ (52 : ℕ) * 2 ^ exponent y ≤ y := by
      rcases abs_cases y with ⟨habs, -⟩ | ⟨habs, -⟩
      · rwa [habs] at hy
      · have hneg := neg_abs_le x
        linarith
    have hxle := rnd_le_of_le (n := 2 ^ 52) hlt.le (by push_cast; exact (le_abs_self x).trans hx.le)
    have hyle := le_rnd_of_le (n := 2 ^ 52) (le_refl (exponent y)) (by push_cast; exact hpos)
    exact hxle.trans hyle
  · rw [rnd, rnd, heq]
    have hquot : x / 2 ^ exponent y ≤ y / 2 ^ exponent y :=
      div_le_div_of_nonneg_right h (two_zpow_pos _).le
    exact mul_le_mul_of_nonneg_right (by exact_mod_cast roundEven_mono hquot) (two_zpow_pos _).le
  · obtain ⟨hy, hx⟩ := exists_between_of_exponent_lt hgt
    have hneg : x ≤ -(2 ^ (52 : ℕ) * 2 ^ exponent x) := by
      rcases abs_cases x with ⟨habs, -⟩ | ⟨habs, -⟩
      · have hpos := le_abs_self y
        linarith
      · linarith
    have hxle := rnd_le_of_le (n := -2 ^ 52) (le_refl (exponent x)) (by push_cast; linarith)
    have hyle := le_rnd_of_le (n := -2 ^ 52) hgt.le (by
      have habs := neg_abs_le y
      push_cast
      linarith)
    exact hxle.trans hyle

theorem exponent_intCast_le {n : ℤ} (h : |n| < 2 ^ 53) : exponent (n : ℚ) ≤ 0 := by
  unfold exponent
  split_ifs with hzero
  · omega
  · have hpos : (0 : ℚ) < |(n : ℚ)| := abs_pos.mpr hzero
    have hlt : |(n : ℚ)| < ((2 : ℕ) : ℚ) ^ (53 : ℤ) := by exact_mod_cast h
    have hlog := (Int.lt_zpow_iff_log_lt one_lt_two hpos).mp hlt
    omega

/-- Integers of 53 bits are doubles. -/
theorem rnd_intCast {n : ℤ} (h : |n| < 2 ^ 53) : rnd n = n := by
  have hexp := exponent_intCast_le h
  apply le_antisymm
  · simpa using rnd_le_of_le (n := n) hexp (by simp)
  · simpa using le_rnd_of_le (n := n) hexp (by simp)

/-- The error is half a unit of the last place. -/
theorem abs_rnd_sub_le (x : ℚ) : |rnd x - x| ≤ 2 ^ exponent x / 2 := by
  have hpos := two_zpow_pos (exponent x)
  have heq : rnd x - x
      = (roundEven (x / 2 ^ exponent x) - x / 2 ^ exponent x) * 2 ^ exponent x := by
    rw [rnd]
    field_simp
  rw [heq, abs_mul, abs_of_pos hpos]
  have hround := abs_roundEven_sub_le (x / 2 ^ exponent x)
  calc |roundEven (x / 2 ^ exponent x) - x / 2 ^ exponent x| * 2 ^ exponent x
      ≤ 1 / 2 * 2 ^ exponent x := mul_le_mul_of_nonneg_right hround hpos.le
    _ = 2 ^ exponent x / 2 := by ring

/-- Of a normal number it is a part in `2 ^ 53`. -/
theorem abs_rnd_sub_le_mul (hx : x = 0 ∨ 2 ^ (-1022 : ℤ) ≤ |x|) : |rnd x - x| ≤ |x| / 2 ^ 53 := by
  rcases hx with rfl | hx
  · simp
  have hpos : 0 < |x| := (two_zpow_pos _).trans_le hx
  have hne : x ≠ 0 := abs_pos.mp hpos
  have hlog : (-1022 : ℤ) ≤ Int.log 2 |x| := by
    exact (Int.zpow_le_iff_le_log (b := 2) one_lt_two hpos).mp (by exact_mod_cast hx)
  have hexp : exponent x = Int.log 2 |x| - 52 := by
    rw [exponent, if_neg hne]
    omega
  have hself : (2 : ℚ) ^ Int.log 2 |x| ≤ |x| := by
    exact_mod_cast Int.zpow_log_le_self (b := 2) one_lt_two hpos
  calc |rnd x - x| ≤ 2 ^ exponent x / 2 := abs_rnd_sub_le x
    _ = 2 ^ Int.log 2 |x| / 2 ^ 53 := by
      rw [hexp, zpow_sub₀ two_ne_zero]
      norm_num
      ring
    _ ≤ |x| / 2 ^ 53 := div_le_div_of_nonneg_right hself (by positivity)

@[simp] theorem rnd_one : rnd 1 = 1 := by
  simpa using rnd_intCast (n := 1) (by norm_num)

theorem one_le_abs_rnd (h : 1 ≤ |x|) : 1 ≤ |rnd x| := by
  rcases le_abs'.mp h with hneg | hpos
  · have hminus : rnd (-1 : ℚ) = -1 := by simpa using rnd_intCast (n := -1) (by norm_num)
    exact le_abs'.mpr (.inl (hminus ▸ rnd_mono hneg))
  · exact le_abs'.mpr (.inr (rnd_one ▸ rnd_mono hpos))

/-- An integer is zero or normal. -/
theorem abs_rnd_intCast_sub_le (n : ℤ) : |rnd n - n| ≤ |(n : ℚ)| / 2 ^ 53 := by
  apply abs_rnd_sub_le_mul
  rcases eq_or_ne n 0 with rfl | hn
  · exact .inl Int.cast_zero
  · have hone : (1 : ℚ) ≤ |(n : ℚ)| := by exact_mod_cast Int.one_le_abs hn
    exact .inr ((zpow_le_one_of_nonpos₀ one_le_two (by norm_num)).trans hone)

theorem abs_rnd_natCast_sub_le (n : ℕ) : |rnd n - n| ≤ n / 2 ^ 53 := by
  simpa using abs_rnd_intCast_sub_le n

/-- The product of a positive normal number and an integer, both roundings included. -/
theorem abs_rnd_mul_rnd_sub_le {a : ℚ} (ha : 2 ^ (-1022 : ℤ) ≤ a) (n : ℤ) :
    |rnd (a * rnd n) - a * n| ≤ a * |(n : ℚ)| / 2 ^ 51 := by
  have hpos : 0 < a := (two_zpow_pos _).trans_le ha
  rcases eq_or_ne n 0 with rfl | hne
  · simp
  have hfactor := abs_rnd_intCast_sub_le n
  have hone : (1 : ℚ) ≤ |rnd n| := one_le_abs_rnd (by exact_mod_cast Int.one_le_abs hne)
  have habs : |a * rnd n| = a * |rnd n| := by rw [abs_mul, abs_of_pos hpos]
  have hproduct : |rnd (a * rnd n) - a * rnd n| ≤ a * |rnd n| / 2 ^ 53 := by
    rw [← habs]
    refine abs_rnd_sub_le_mul (.inr ?_)
    rw [habs]
    exact ha.trans (le_mul_of_one_le_right hpos.le hone)
  have hle : |rnd n| ≤ |(n : ℚ)| + |(n : ℚ)| / 2 ^ 53 := by
    have htriangle := abs_sub_abs_le_abs_sub (rnd n) n
    linarith
  calc |rnd (a * rnd n) - a * n|
      ≤ |rnd (a * rnd n) - a * rnd n| + |a * rnd n - a * n| := abs_sub_le _ _ _
    _ = |rnd (a * rnd n) - a * rnd n| + a * |rnd n - n| := by
        rw [← mul_sub, abs_mul, abs_of_pos hpos]
    _ ≤ a * (|(n : ℚ)| + |(n : ℚ)| / 2 ^ 53) / 2 ^ 53 + a * (|(n : ℚ)| / 2 ^ 53) := by
        gcongr
        exact hproduct.trans (by gcongr)
    _ ≤ a * |(n : ℚ)| / 2 ^ 51 := by
        have hnonneg : 0 ≤ a * |(n : ℚ)| := by positivity
        linarith

/-- The quotient of two numbers that were rounded. -/
theorem abs_div_sub_le {x' y' : ℚ} (hy : y ≠ 0) (hx' : |x' - x| ≤ |x| / 2 ^ 53)
    (hy' : |y' - y| ≤ |y| / 2 ^ 53) : |x' / y' - x / y| ≤ |x / y| * (5 / 2 ^ 54) := by
  have hpos : 0 < |y| := abs_pos.mpr hy
  have hbelow : |y| - |y| / 2 ^ 53 ≤ |y'| := by
    have htriangle := abs_sub_abs_le_abs_sub y y'
    rw [abs_sub_comm] at htriangle
    linarith
  have hpos' : 0 < |y'| := lt_of_lt_of_le (by linarith) hbelow
  have hne' : y' ≠ 0 := abs_pos.mp hpos'
  have hcross : |x' * y - y' * x| ≤ |x| * |y| / 2 ^ 52 := by
    have hsum : x' * y - y' * x = (x' - x) * y - (y' - y) * x := by ring
    have hleft : |(x' - x) * y| ≤ |x| / 2 ^ 53 * |y| := by
      rw [abs_mul]
      gcongr
    have hright : |(y' - y) * x| ≤ |y| / 2 ^ 53 * |x| := by
      rw [abs_mul]
      gcongr
    calc |x' * y - y' * x| ≤ |(x' - x) * y| + |(y' - y) * x| := hsum ▸ abs_sub _ _
      _ ≤ |x| / 2 ^ 53 * |y| + |y| / 2 ^ 53 * |x| := add_le_add hleft hright
      _ = |x| * |y| / 2 ^ 52 := by ring
  rw [div_sub_div _ _ hne' hy, abs_div, abs_mul, abs_div, div_le_iff₀ (mul_pos hpos' hpos)]
  have hscale : |x| / |y| * (5 / 2 ^ 54) * (|y'| * |y|) = |x| * |y'| * (5 / 2 ^ 54) := by
    field_simp
  have hprod : |x| * (|y| - |y| / 2 ^ 53) ≤ |x| * |y'| :=
    mul_le_mul_of_nonneg_left hbelow (abs_nonneg x)
  rw [hscale]
  have hnonneg : 0 ≤ |x| * |y| := by positivity
  linarith

/-- **A quotient with all of its roundings**, of numbers that are not far apart. -/
theorem abs_rnd_div_sub_le {x' y' : ℚ} (hy : y ≠ 0) (hx' : |x' - x| ≤ |x| / 2 ^ 53)
    (hy' : |y' - y| ≤ |y| / 2 ^ 53) (hquot : x = 0 ∨ 2 ^ (-1021 : ℤ) ≤ |x / y|) :
    |rnd (x' / y') - x / y| ≤ |x / y| / 2 ^ 51 := by
  have hdiv := abs_div_sub_le hy hx' hy'
  have hnonneg := abs_nonneg (x / y)
  have hnormal : x' / y' = 0 ∨ 2 ^ (-1022 : ℤ) ≤ |x' / y'| := by
    rcases hquot with rfl | hquot
    · have hzero : x' = 0 := by simpa using hx'
      exact .inl (by rw [hzero, zero_div])
    · have hhalf : (2 : ℚ) ^ (-1021 : ℤ) = 2 ^ (-1022 : ℤ) * 2 := by
        rw [← zpow_add_one₀ two_ne_zero]
        norm_num
      have htriangle := abs_sub_abs_le_abs_sub (x / y) (x' / y')
      rw [abs_sub_comm] at htriangle
      rw [hhalf] at hquot
      exact .inr (by linarith)
  have hround := abs_rnd_sub_le_mul hnormal
  have htriangle := abs_sub_abs_le_abs_sub (x' / y') (x / y)
  calc |rnd (x' / y') - x / y| ≤ |rnd (x' / y') - x' / y'| + |x' / y' - x / y| :=
        abs_sub_le _ _ _
    _ ≤ |x / y| / 2 ^ 51 := by linarith

/-! Numbers that are zero or not small are rounded to such. -/

theorem rnd_zero_or_le {b : ℚ} (hb : rnd b = b) (h : x = 0 ∨ b ≤ x) : rnd x = 0 ∨ b ≤ rnd x := by
  rcases h with rfl | h
  · exact .inl rnd_zero
  · exact .inr (hb.symm.trans_le (rnd_mono h))

theorem abs_rnd_sub_le_of_half (h : x = 0 ∨ 1 / 2 ≤ x) : |rnd x - x| ≤ x / 2 ^ 53 := by
  have hnonneg : 0 ≤ x := by rcases h with rfl | h <;> linarith
  have hnormal : x = 0 ∨ 2 ^ (-1022 : ℤ) ≤ |x| := by
    refine h.imp_right fun hx => ?_
    have hsmall : (2 : ℚ) ^ (-1022 : ℤ) ≤ 2 ^ (-1 : ℤ) :=
      zpow_le_zpow_right₀ one_le_two (by norm_num)
    rw [abs_of_nonneg hnonneg]
    exact hsmall.trans (le_trans (by norm_num) hx)
  simpa [abs_of_nonneg hnonneg] using abs_rnd_sub_le_mul hnormal

/-! ## Toward zero -/

/-- The integer part. -/
def truncate (x : ℚ) : ℤ := if 0 ≤ x then ⌊x⌋ else ⌈x⌉

theorem truncate_mono (h : x ≤ y) : truncate x ≤ truncate y := by
  unfold truncate
  split_ifs with hx hy hy
  · exact Int.floor_le_floor h
  · linarith
  · have hceil : ⌈x⌉ ≤ 0 := Int.ceil_le.mpr (by push_cast; linarith)
    have hfloor : 0 ≤ ⌊y⌋ := Int.floor_nonneg.mpr hy
    omega
  · exact Int.ceil_le_ceil h

theorem abs_truncate_sub_lt (x : ℚ) : |truncate x - x| < 1 := by
  rw [abs_lt]
  unfold truncate
  split_ifs
  · have hle := Int.floor_le x
    have hlt := Int.lt_floor_add_one x
    constructor <;> linarith
  · have hle := Int.le_ceil x
    have hlt := Int.ceil_lt_add_one x
    constructor <;> linarith

@[simp] theorem truncate_intCast (n : ℤ) : truncate (n : ℚ) = n := by
  simp [truncate]

end Papper.Binary64
