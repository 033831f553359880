import Mathlib.Data.Nat.Bitwise
import Mathlib.Data.Nat.Digits.Defs

/-!
# Shift registers with feedback

A register is a number. One step shifts it down by a bit, and if the bit shifted out was set, a
fixed polynomial is added without carry. A message is fed in words: a word is added to the low end
of the register, without carry, and then the register makes a step for every bit of the word.

## Why this is all linear

A step respects addition without carry (`step_xor`), and a register whose low bits are clear only
moves down (`steps_two_pow_mul`). From these two facts alone it follows that feeding words one after
the other is the same as adding the whole message at once and then stepping through it
(`foldl_feed`), whatever the width of the words. In particular the words may be bits or bytes, and
what the low byte does may be looked up in a table (`steps_eq_xor_shiftRight`).

## What cannot be lost

If the polynomial has the top bit of the register, a step loses nothing: a register that becomes
zero was zero. Two registers that differ differ after any number of steps, and so do two registers
that were equal and were fed different messages no longer than themselves.

## Main definitions

* `ShiftRegister.step`, `ShiftRegister.feed`
* `ShiftRegister.Full`: a polynomial with the top bit of the register

## Main results

* `foldl_feed`: feeding a message in words of any width
* `steps_eq_xor_shiftRight`: some steps at once, from what the low bits do
* `Full.foldl_feed_inj_register`: different registers stay different
* `Full.foldl_feed_inj_words`: different short messages are told apart
-/

namespace Relay

namespace ShiftRegister

variable {poly r r' n k : ℕ}

/-- One step of the register. -/
def step (poly r : ℕ) : ℕ := if r &&& 1 = 1 then (r >>> 1) ^^^ poly else r >>> 1

/-- A word of some width is added, and stepped through. -/
def feed (poly width r word : ℕ) : ℕ := (step poly)^[width] (r ^^^ word)

/-! ### Linearity -/

theorem step_xor (poly r r' : ℕ) : step poly (r ^^^ r') = step poly r ^^^ step poly r' := by
  simp only [step, Nat.and_one_is_mod, Nat.xor_mod_two_eq_one, Nat.shiftRight_xor_distrib]
  by_cases hr : r % 2 = 1 <;> by_cases hr' : r' % 2 = 1
  · simp only [hr, hr', not_true, if_false, if_true]
    rw [Nat.xor_assoc, Nat.xor_comm poly, Nat.xor_assoc, Nat.xor_self, Nat.xor_zero]
  · simp [hr, hr', Nat.xor_assoc, Nat.xor_comm poly]
  · simp [hr, hr', Nat.xor_assoc]
  · simp [hr, hr']

theorem steps_xor (poly n r r' : ℕ) :
    (step poly)^[n] (r ^^^ r') = (step poly)^[n] r ^^^ (step poly)^[n] r' := by
  induction n generalizing r r' with
  | zero => rfl
  | succ n ih => rw [Function.iterate_succ_apply, step_xor, ih]; rfl

/-- A register whose low bits are clear only moves down. -/
theorem steps_two_pow_mul (poly n r : ℕ) : (step poly)^[n] (2 ^ n * r) = r := by
  induction n with
  | zero => simp
  | succ n ih =>
    have hstep : step poly (2 ^ (n + 1) * r) = 2 ^ n * r := by
      rw [Nat.pow_succ', Nat.mul_assoc, step, Nat.and_one_is_mod, Nat.mul_mod_right,
        if_neg (by decide), Nat.shiftRight_one, Nat.mul_div_cancel_left _ (by decide)]
    rw [Function.iterate_succ_apply, hstep, ih]

/-- The low bits and the rest have no bit in common. -/
theorem add_two_pow_mul_eq_xor (h : r < 2 ^ n) (r' : ℕ) : r + 2 ^ n * r' = r ^^^ 2 ^ n * r' := by
  refine Nat.eq_of_testBit_eq fun i => ?_
  rw [Nat.add_comm, Nat.testBit_two_pow_mul_add r' h, Nat.testBit_xor, Nat.testBit_two_pow_mul]
  by_cases hi : i < n
  · simp [hi, not_le.mpr hi]
  · have hhigh : r.testBit i = false :=
      Nat.testBit_lt_two_pow (h.trans_le (Nat.pow_le_pow_right (by decide) (not_lt.mp hi)))
    simp [hi, hhigh, not_lt.mp hi]

/-- **Several steps at once**: what the low bits become, added to what is left of the others. -/
theorem steps_eq_xor_shiftRight (poly n r : ℕ) :
    (step poly)^[n] r = (step poly)^[n] (r % 2 ^ n) ^^^ r >>> n := by
  have hsplit : r = r % 2 ^ n ^^^ 2 ^ n * (r >>> n) := by
    rw [← add_two_pow_mul_eq_xor (Nat.mod_lt _ (Nat.two_pow_pos n)), Nat.shiftRight_eq_div_pow,
      Nat.mod_add_div]
  conv_lhs => rw [hsplit, steps_xor, steps_two_pow_mul]

/-- **Feeding in words.** Words of any width, one after the other, are the number they are the
digits of, added at once and stepped through. -/
theorem foldl_feed (poly width r : ℕ) {words : List ℕ} (h : ∀ w ∈ words, w < 2 ^ width) :
    words.foldl (feed poly width) r =
      (step poly)^[width * words.length] (r ^^^ Nat.ofDigits (2 ^ width) words) := by
  induction words generalizing r with
  | nil => simp
  | cons w words ih =>
    obtain ⟨hw, hwords⟩ := List.forall_mem_cons.mp h
    rw [List.foldl_cons, ih _ hwords, feed, Nat.ofDigits_cons, add_two_pow_mul_eq_xor hw,
      List.length_cons, Nat.mul_succ, Function.iterate_add_apply, ← Nat.xor_assoc,
      steps_xor poly width (r ^^^ w), steps_two_pow_mul]

/-! ### Nothing is lost -/

/-- Registers of `n + 1` bits, with a polynomial that has the top one. -/
structure Full (poly n : ℕ) : Prop where
  top : 2 ^ n ≤ poly
  lt : poly < 2 ^ (n + 1)

theorem shiftRight_one_lt (h : r < 2 ^ (n + 1)) : r >>> 1 < 2 ^ n := by
  rw [Nat.shiftRight_one]
  omega

theorem Full.step_lt (hp : Full poly n) (h : r < 2 ^ (n + 1)) : step poly r < 2 ^ (n + 1) := by
  have hshift : r >>> 1 < 2 ^ (n + 1) :=
    (shiftRight_one_lt h).trans (Nat.pow_lt_pow_right (by decide) (Nat.lt_succ_self n))
  rw [step]
  split
  · exact Nat.xor_lt_two_pow hshift hp.lt
  · exact hshift

/-- Only zero steps to zero. -/
theorem Full.eq_zero_of_step_eq_zero (hp : Full poly n) (h : r < 2 ^ (n + 1))
    (hzero : step poly r = 0) : r = 0 := by
  rw [step, Nat.and_one_is_mod] at hzero
  split at hzero
  · have htop := shiftRight_one_lt h
    rw [Nat.xor_eq_zero_iff.mp hzero] at htop
    exact absurd hp.top htop.not_ge
  · rw [Nat.shiftRight_one] at hzero
    omega

theorem Full.steps_lt (hp : Full poly n) (h : r < 2 ^ (n + 1)) (k : ℕ) :
    (step poly)^[k] r < 2 ^ (n + 1) := by
  induction k with
  | zero => exact h
  | succ k ih =>
    rw [Function.iterate_succ_apply']
    exact hp.step_lt ih

theorem Full.eq_zero_of_steps_eq_zero (hp : Full poly n) (h : r < 2 ^ (n + 1))
    (hzero : (step poly)^[k] r = 0) : r = 0 := by
  induction k with
  | zero => exact hzero
  | succ k ih =>
    rw [Function.iterate_succ_apply'] at hzero
    exact ih (hp.eq_zero_of_step_eq_zero (hp.steps_lt h k) hzero)

/-- **Registers that differ stay different.** -/
theorem Full.steps_inj (hp : Full poly n) (h : r < 2 ^ (n + 1)) (h' : r' < 2 ^ (n + 1))
    (heq : (step poly)^[k] r = (step poly)^[k] r') : r = r' := by
  refine Nat.xor_eq_zero_iff.mp
    (hp.eq_zero_of_steps_eq_zero (k := k) (Nat.xor_lt_two_pow h h') ?_)
  rw [steps_xor, heq, Nat.xor_self]

variable {width : ℕ} {words words' : List ℕ}

theorem Full.foldl_feed_lt (hp : Full poly n) (hwidth : width ≤ n + 1)
    (hwords : ∀ w ∈ words, w < 2 ^ width) (h : r < 2 ^ (n + 1)) :
    words.foldl (feed poly width) r < 2 ^ (n + 1) := by
  induction words generalizing r with
  | nil => exact h
  | cons w words ih =>
    obtain ⟨hw, hrest⟩ := List.forall_mem_cons.mp hwords
    have hw' : w < 2 ^ (n + 1) := hw.trans_le (Nat.pow_le_pow_right (by decide) hwidth)
    exact ih hrest (hp.steps_lt (Nat.xor_lt_two_pow h hw') width)

/-- Two registers fed the same words end up the same only if they were. -/
theorem Full.foldl_feed_inj_register (hp : Full poly n) (hwidth : width ≤ n + 1)
    (hwords : ∀ w ∈ words, w < 2 ^ width) (h : r < 2 ^ (n + 1)) (h' : r' < 2 ^ (n + 1))
    (heq : words.foldl (feed poly width) r = words.foldl (feed poly width) r') : r = r' := by
  induction words generalizing r r' with
  | nil => exact heq
  | cons w words ih =>
    obtain ⟨hw, hrest⟩ := List.forall_mem_cons.mp hwords
    have hw' : w < 2 ^ (n + 1) := hw.trans_le (Nat.pow_le_pow_right (by decide) hwidth)
    have hxor := Nat.xor_lt_two_pow h hw'
    have hxor' := Nat.xor_lt_two_pow h' hw'
    have hsum := hp.steps_inj hxor hxor' (ih hrest (hp.steps_lt hxor width)
      (hp.steps_lt hxor' width) heq)
    rw [← Nat.xor_xor_cancel_right r w, hsum, Nat.xor_xor_cancel_right]

/-- **Short messages are told apart**: the same register, fed two messages of one length that is no
more than its own, ends up the same only if they are the same. -/
theorem Full.foldl_feed_inj_words (hp : Full poly n) (hwidth : 0 < width)
    (hshort : width * words.length ≤ n + 1) (hlen : words.length = words'.length)
    (hwords : ∀ w ∈ words, w < 2 ^ width) (hwords' : ∀ w ∈ words', w < 2 ^ width)
    (h : r < 2 ^ (n + 1))
    (heq : words.foldl (feed poly width) r = words'.foldl (feed poly width) r) :
    words = words' := by
  have hbase : 1 < 2 ^ width := Nat.one_lt_two_pow hwidth.ne'
  have hnumber {l : List ℕ} (hl : ∀ w ∈ l, w < 2 ^ width) (hle : width * l.length ≤ n + 1) :
      Nat.ofDigits (2 ^ width) l < 2 ^ (n + 1) := by
    refine (Nat.ofDigits_lt_base_pow_length hbase hl).trans_le ?_
    rw [← Nat.pow_mul]
    exact Nat.pow_le_pow_right (by decide) hle
  rw [foldl_feed _ _ _ hwords, foldl_feed _ _ _ hwords', ← hlen] at heq
  have hsum := hp.steps_inj (Nat.xor_lt_two_pow h (hnumber hwords hshort))
    (Nat.xor_lt_two_pow h (hnumber hwords' (hlen ▸ hshort))) heq
  refine Nat.ofDigits_inj_of_len_eq hbase hlen hwords hwords' ?_
  rw [← Nat.xor_xor_cancel_left r (Nat.ofDigits _ words), hsum, Nat.xor_xor_cancel_left]

end ShiftRegister

end Relay
