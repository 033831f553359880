import Mathlib.Order.Lattice

/-!
# Matching logs

A log here is what a lookup says: at each index the term of the entry, or nothing. Two logs match
if an index at which they hold the same term has nothing below it on which they differ.

Matching is not transitive, so it cannot be carried from log to log along a run. What can be
carried is that a log is some other log cut off at an index: cuts of matching logs match
(`Matching.cut`), and where two matching logs hold the same term their cuts there are one log
(`Matching.cut_eq`).

## Main definitions

* `Matching`
* `cut`
-/

namespace Relay

variable {ι τ : Type*} [LinearOrder ι]

/-- Where the two logs hold the same term, they are the same up to there. -/
def Matching (f g : ι → Option τ) : Prop :=
  ∀ i t, f i = some t → g i = some t → ∀ j ≤ i, f j = g j

/-- The log up to and including an index. -/
def cut (f : ι → Option τ) (n : ι) : ι → Option τ := fun i => if i ≤ n then f i else none

theorem cut_of_le {f : ι → Option τ} {n i : ι} (h : i ≤ n) : cut f n i = f i := if_pos h

theorem cut_of_lt {f : ι → Option τ} {n i : ι} (h : n < i) : cut f n i = none :=
  if_neg (not_le.mpr h)

theorem cut_eq_some_iff {f : ι → Option τ} {n i : ι} {t : τ} :
    cut f n i = some t ↔ i ≤ n ∧ f i = some t := by
  rw [cut]
  split
  · next hle => exact (and_iff_right hle).symm
  · next hgt => simp [hgt]

/-- Cutting twice is cutting once, at the lower index. -/
theorem cut_cut_of_le (f : ι → Option τ) {m n : ι} (h : n ≤ m) : cut (cut f m) n = cut f n := by
  funext i
  rcases le_or_gt i n with hle | hgt
  · rw [cut_of_le hle, cut_of_le hle, cut_of_le (hle.trans h)]
  · rw [cut_of_lt hgt, cut_of_lt hgt]

namespace Matching

variable {f g : ι → Option τ}

theorem none_left (g : ι → Option τ) : Matching (fun _ => none) g := by
  intro i t hf
  cases hf

theorem symm (h : Matching f g) : Matching g f := fun i t hg hf j hj => (h i t hf hg j hj).symm

/-- Cuts of matching logs match. -/
theorem cut (h : Matching f g) (m n : ι) : Matching (cut f m) (cut g n) := by
  intro i t hf hg j hj
  obtain ⟨him, hf⟩ := cut_eq_some_iff.mp hf
  obtain ⟨hin, hg⟩ := cut_eq_some_iff.mp hg
  rw [cut_of_le (hj.trans him), cut_of_le (hj.trans hin)]
  exact h i t hf hg j hj

/-- A cut of one of two matching logs matches the other. -/
theorem cut_left (h : Matching f g) (m : ι) : Matching (Relay.cut f m) g := by
  intro i t hf hg j hj
  obtain ⟨him, hf⟩ := cut_eq_some_iff.mp hf
  rw [cut_of_le (hj.trans him)]
  exact h i t hf hg j hj

/-- Where matching logs hold the same term, they have the same cut. -/
theorem cut_eq (h : Matching f g) {i : ι} {t : τ} (hf : f i = some t) (hg : g i = some t) :
    Relay.cut f i = Relay.cut g i := by
  funext j
  rcases le_or_gt j i with hle | hgt
  · rw [cut_of_le hle, cut_of_le hle, h i t hf hg j hle]
  · rw [cut_of_lt hgt, cut_of_lt hgt]

end Matching

end Relay
