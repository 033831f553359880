import Mathlib.Algebra.Order.Ring.Int
import Mathlib.Data.Int.Bitwise
import Mathlib.Tactic.Ring

/-!
# The lowest set bit

The lowest set bit of a positive integer is the greatest power of two that divides it. To every
positive `j` belongs a block, the integers after `j - lowestBit j` up to `j`. The blocks are nested
as the nodes of a tree are, and adding the lowest set bit to `i` leads to the end of the next block
around the block of `i`: apart from its own, the blocks that `i` is in are the blocks that
`i + lowestBit i` is in (`inBlock_add_lowestBit_iff`).

## Main definitions

* `lowestBit`, as the bitwise `and` of an integer and its negation
* `InBlock`

## Main results

* `exists_lowestBit_eq`: the lowest set bit as a power of two
* `inBlock_add_lowestBit_iff`
-/

namespace Relay

namespace LowestBit

/-- `i & -i`. -/
def lowestBit (i : ℤ) : ℤ := Int.land i (-i)

/-- Doubling moves the bit by one. -/
theorem lowestBit_two_mul (i : ℤ) : lowestBit (2 * i) = 2 * lowestBit i := by
  have hland := Int.land_bit false i false (-i)
  simp only [Int.bit_val, Bool.and_self, cond_false, add_zero] at hland
  rw [lowestBit, lowestBit, ← hland, mul_neg]

theorem lowestBit_two_mul_add_one (n : ℕ) : lowestBit (2 * n + 1) = 1 := by
  have hland := Int.land_bit true n true (-n - 1)
  have hself : Int.land n (-n - 1) = 0 := by
    have hneg : (-n - 1 : ℤ) = Int.negSucc n := by rw [Int.negSucc_eq, neg_add']
    rw [hneg]
    refine congrArg Int.ofNat (Nat.eq_of_testBit_eq fun k => ?_)
    rw [Nat.testBit_ldiff, Nat.zero_testBit, Bool.and_not_self]
  have hneg : -(2 * (n : ℤ) + 1) = 2 * (-n - 1) + 1 := by ring
  simp only [Int.bit_val, Bool.and_self, cond_true, hself] at hland
  rw [lowestBit, hneg, hland]
  rfl

/-- A positive integer is an odd multiple of its lowest set bit, which is a power of two. -/
theorem exists_lowestBit_eq {i : ℤ} (hi : 0 < i) :
    ∃ (a : ℕ) (m : ℤ), lowestBit i = 2 ^ a ∧ i = 2 ^ a * (2 * m + 1) := by
  obtain ⟨n, rfl⟩ := Int.eq_ofNat_of_zero_le hi.le
  induction n using Nat.strong_induction_on with
  | h n ih =>
    rcases Nat.even_or_odd' n with ⟨k, rfl | rfl⟩
    · obtain ⟨a, m, hbit, hk⟩ := ih k (by omega) (by omega)
      refine ⟨a + 1, m, ?_, ?_⟩
      · rw [Nat.cast_mul, Nat.cast_ofNat, lowestBit_two_mul, hbit, pow_succ']
      · rw [Nat.cast_mul, Nat.cast_ofNat, hk, pow_succ', mul_assoc]
    · refine ⟨0, k, ?_, ?_⟩
      · rw [Nat.cast_add, Nat.cast_mul, Nat.cast_ofNat, Nat.cast_one, lowestBit_two_mul_add_one,
          pow_zero]
      · rw [pow_zero, one_mul]
        push_cast
        rfl

section Divides

variable {i j : ℤ}

theorem lowestBit_pos (hi : 0 < i) : 0 < lowestBit i := by
  obtain ⟨a, m, hbit, -⟩ := exists_lowestBit_eq hi
  rw [hbit]
  exact pow_pos two_pos a

theorem add_lowestBit_pos (hi : 0 < i) : 0 < i + lowestBit i := add_pos hi (lowestBit_pos hi)

/-- The number is a multiple of its lowest bit. -/
theorem lowestBit_dvd (hi : 0 < i) : lowestBit i ∣ i := by
  obtain ⟨a, m, hbit, h⟩ := exists_lowestBit_eq hi
  exact hbit ▸ ⟨2 * m + 1, h⟩

theorem lowestBit_le (hi : 0 < i) : lowestBit i ≤ i := Int.le_of_dvd hi (lowestBit_dvd hi)

/-- It is not a multiple of twice the bit. -/
theorem not_two_mul_lowestBit_dvd (hi : 0 < i) : ¬ 2 * lowestBit i ∣ i := by
  obtain ⟨a, m, hbit, h⟩ := exists_lowestBit_eq hi
  rintro ⟨c, hc⟩
  have hpos : (0 : ℤ) < 2 ^ a := pow_pos two_pos a
  rw [hbit, h, mul_assoc, mul_left_comm] at hc
  have := mul_left_cancel₀ hpos.ne' hc
  omega

/-- Adding the bit or taking it away leaves a multiple of twice the bit. -/
theorem two_mul_lowestBit_dvd_add (hi : 0 < i) : 2 * lowestBit i ∣ i + lowestBit i := by
  obtain ⟨a, m, hbit, h⟩ := exists_lowestBit_eq hi
  refine ⟨m + 1, ?_⟩
  rw [hbit, h]
  ring

theorem two_mul_lowestBit_dvd_sub (hi : 0 < i) : 2 * lowestBit i ∣ i - lowestBit i := by
  have hdvd := Int.dvd_sub (two_mul_lowestBit_dvd_add hi) (dvd_refl (2 * lowestBit i))
  have heq : i + lowestBit i - 2 * lowestBit i = i - lowestBit i := by ring
  rwa [heq] at hdvd

/-- Of two lowest set bits, the one divides the other or is divided by twice the other. -/
theorem lowestBit_dvd_or (hi : 0 < i) (hj : 0 < j) :
    lowestBit i ∣ lowestBit j ∨ 2 * lowestBit j ∣ lowestBit i := by
  obtain ⟨a, -, ha, -⟩ := exists_lowestBit_eq hi
  obtain ⟨b, -, hb, -⟩ := exists_lowestBit_eq hj
  rw [ha, hb]
  rcases le_or_gt a b with hab | hba
  · exact Or.inl (pow_dvd_pow 2 hab)
  · refine Or.inr ?_
    rw [← pow_succ']
    exact pow_dvd_pow 2 hba

/-- Two multiples of a positive integer are no closer than that. -/
theorem add_le_of_dvd {d x y : ℤ} (hx : d ∣ x) (hy : d ∣ y) (hlt : x < y) : x + d ≤ y := by
  have := Int.le_of_dvd (by omega) (Int.dvd_sub hy hx)
  omega

end Divides

/-! ## Blocks -/

/-- `i` is in the block of `j`. -/
def InBlock (j i : ℤ) : Prop := j - lowestBit j < i ∧ i ≤ j

instance (j i : ℤ) : Decidable (InBlock j i) := inferInstanceAs (Decidable (_ ∧ _))

section Blocks

variable {i j : ℤ}

theorem inBlock_self (hi : 0 < i) : InBlock i i := by
  have := lowestBit_pos hi
  exact ⟨by omega, le_refl i⟩

/-- The number a step up is not in the block. -/
theorem not_inBlock_add_lowestBit (hi : 0 < i) : ¬ InBlock i (i + lowestBit i) := by
  have := lowestBit_pos hi
  exact fun h => absurd h.2 (by omega)

/-- **The blocks of an index.** Apart from its own, the blocks that `i` is in are those that
`i + lowestBit i` is in. -/
theorem inBlock_add_lowestBit_iff (hi : 0 < i) (hj : 0 < j) (hne : i ≠ j) :
    InBlock j (i + lowestBit i) ↔ InBlock j i := by
  have hi_pos := lowestBit_pos hi
  have hj_dvd := lowestBit_dvd hj
  constructor
  · rintro ⟨hlow, hhigh⟩
    refine ⟨not_le.mp fun hle => ?_, by omega⟩
    rcases lowestBit_dvd_or hi hj with hdvd | hdvd
    · -- the start of the block is a multiple of the lowest bit of `i`, so it is `i`
      have hstart : lowestBit i ∣ j - lowestBit j := Int.dvd_sub (hdvd.trans hj_dvd) hdvd
      rcases hle.lt_or_eq with hlt | heq
      · exact absurd (add_le_of_dvd (lowestBit_dvd hi) hstart hlt) (not_le.mpr hlow)
      · have htwice : 2 * lowestBit i ∣ j - lowestBit j :=
          (mul_dvd_mul_left 2 hdvd).trans (two_mul_lowestBit_dvd_sub hj)
        rw [← heq] at htwice
        exact not_two_mul_lowestBit_dvd hi htwice
    · -- the next index is a multiple of twice the lowest bit of `j`, so it is not in the block
      have hnext : 2 * lowestBit j ∣ i + lowestBit i :=
        (hdvd.trans (dvd_mul_left _ 2)).trans (two_mul_lowestBit_dvd_add hi)
      rcases hhigh.lt_or_eq with hlt | heq
      · have := add_le_of_dvd ((dvd_mul_left _ 2).trans hnext) hj_dvd hlt
        omega
      · exact not_two_mul_lowestBit_dvd hj (heq ▸ hnext)
  · rintro ⟨hlow, hhigh⟩
    refine ⟨by omega, ?_⟩
    have hlt : i < j := lt_of_le_of_ne hhigh hne
    rcases lowestBit_dvd_or hi hj with hdvd | hdvd
    · exact add_le_of_dvd (lowestBit_dvd hi) (hdvd.trans hj_dvd) hlt
    · have hmultiple : lowestBit j ∣ i :=
        ((dvd_mul_left _ 2).trans hdvd).trans (lowestBit_dvd hi)
      have := add_le_of_dvd hmultiple hj_dvd hlt
      omega

end Blocks

end LowestBit

end Relay
