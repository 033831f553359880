import Mathlib.Data.Finset.Card
import Mathlib.Data.List.Nodup

/-!
# Recency

A history lists what was touched, the latest first. Without repetitions, each element at its latest
touch, it is the order of recency. An element is among the first `n` of that order exactly when it
was touched and fewer than `n` other elements have been touched since (`mem_take_recent_iff`).

One more touch moves an element to the front. What is known of the first `n` is enough to know the
first `n` after it (`take_recent_cons`), so the rest of the order need not be kept.

## Main definitions

* `recent`: the order of recency of a history

## Main results

* `mem_take_recent_iff`: who is among the most recent
* `take_recent_cons`: the most recent after one more touch, from the most recent before it
-/

namespace Relay

namespace Recency

variable {κ : Type*} [DecidableEq κ]

/-- The elements of a history, each at its latest touch. -/
def recent : List κ → List κ
  | [] => []
  | k :: history => k :: (recent history).filter (· ≠ k)

@[simp] theorem mem_recent {history : List κ} {k : κ} : k ∈ recent history ↔ k ∈ history := by
  induction history with
  | nil => rfl
  | cons j history ih =>
    rw [recent, List.mem_cons, List.mem_cons, List.mem_filter, ih, decide_eq_true_eq]
    by_cases h : k = j <;> simp [h]

theorem nodup_recent (history : List κ) : (recent history).Nodup := by
  induction history with
  | nil => exact List.nodup_nil
  | cons k history ih =>
    refine List.nodup_cons.mpr ⟨fun hmem => ?_, ih.filter _⟩
    simpa using (List.mem_filter.mp hmem).2

theorem length_recent (history : List κ) : (recent history).length = history.toFinset.card := by
  rw [← List.toFinset_card_of_nodup (nodup_recent history)]
  congr 1
  ext k
  rw [List.mem_toFinset, List.mem_toFinset, mem_recent]

/-- Touches that came later come first, and hide the earlier ones of the same elements. -/
theorem recent_append (newer older : List κ) :
    recent (newer ++ older) = recent newer ++ (recent older).filter (· ∉ newer) := by
  induction newer with
  | nil =>
    rw [List.nil_append, recent, List.nil_append, List.filter_eq_self.mpr]
    intro k _
    simp
  | cons k newer ih =>
    rw [List.cons_append, recent, ih, recent, List.filter_append, List.filter_filter,
      List.cons_append]
    congr 2
    refine List.filter_congr fun j _ => ?_
    simp only [ne_eq, List.mem_cons, not_or, Bool.decide_and]

/-- **Who is among the most recent.** Fewer than `n` other elements were touched since. -/
theorem mem_take_recent_iff {history : List κ} {k : κ} {n : ℕ} :
    k ∈ (recent history).take n ↔
      ∃ newer older, history = newer ++ k :: older ∧ k ∉ newer ∧ newer.toFinset.card < n := by
  have hplace (newer older : List κ) (hk : k ∉ newer) :
      recent (newer ++ k :: older) = recent newer ++ k ::
        ((recent older).filter (· ≠ k)).filter (· ∉ newer) := by
    rw [recent_append, recent, List.filter_cons_of_pos (by simpa using hk)]
  constructor
  · intro hmem
    have htouched : k ∈ history := mem_recent.mp (List.mem_of_mem_take hmem)
    obtain ⟨newer, older, rfl, hk⟩ := List.eq_append_cons_of_mem htouched
    refine ⟨newer, older, rfl, hk, ?_⟩
    by_contra hge
    rw [← length_recent, not_lt] at hge
    rw [hplace newer older hk, List.take_append_of_le_length hge] at hmem
    exact hk (mem_recent.mp (List.mem_of_mem_take hmem))
  · rintro ⟨newer, older, rfl, hk, hlt⟩
    rw [← length_recent] at hlt
    rw [hplace newer older hk, List.take_append, List.mem_append]
    refine Or.inr ?_
    rw [show n - (recent newer).length = (n - (recent newer).length - 1) + 1 by omega,
      List.take_succ_cons]
    exact List.mem_cons_self

/-- Without an element that is among the first `n`, there is room for one less. -/
theorem filter_take_of_mem {l : List κ} (hl : l.Nodup) {k : κ} {n : ℕ} (hk : k ∈ l.take n) :
    (l.take n).filter (· ≠ k) = (l.filter (· ≠ k)).take (n - 1) := by
  induction l generalizing n with
  | nil => rw [List.take_nil] at hk; cases hk
  | cons j l ih =>
    obtain ⟨hj, hl⟩ := List.nodup_cons.mp hl
    cases n with
    | zero => cases hk
    | succ n =>
      rw [List.take_succ_cons, Nat.add_sub_cancel]
      by_cases hjk : j = k
      · -- the first element is the one, and it does not come again
        subst hjk
        have hall : ∀ i ∈ l, decide (i ≠ j) = true := fun i hi => by
          simpa using ne_of_mem_of_not_mem hi hj
        rw [List.filter_cons_of_neg (by simp), List.filter_cons_of_neg (by simp),
          List.filter_eq_self.mpr hall,
          List.filter_eq_self.mpr fun i hi => hall i (List.mem_of_mem_take hi)]
      · have hk : k ∈ l.take n := by
          rw [List.take_succ_cons] at hk
          exact (List.mem_cons.mp hk).resolve_left (Ne.symm hjk)
        have hn : n ≠ 0 := by
          rintro rfl
          cases hk
        rw [List.filter_cons_of_pos (by simpa using hjk), List.filter_cons_of_pos
          (by simpa using hjk), ih hl hk, ← List.take_succ_cons, Nat.sub_add_cancel (by omega)]

/-- Without an element that is not among the first `n`, one less are what they were. -/
theorem take_filter_of_not_mem {l : List κ} {k : κ} {n : ℕ} (hk : k ∉ l.take n) :
    (l.filter (· ≠ k)).take (n - 1) = l.take (n - 1) := by
  induction l generalizing n with
  | nil => rfl
  | cons j l ih =>
    cases n with
    | zero => rfl
    | succ n =>
      rw [List.take_succ_cons, List.mem_cons, not_or] at hk
      rw [List.filter_cons_of_pos (by simpa using Ne.symm hk.1), Nat.add_sub_cancel]
      cases n with
      | zero => rfl
      | succ n =>
        have hrest := ih hk.2
        rw [Nat.add_sub_cancel] at hrest
        rw [List.take_succ_cons, List.take_succ_cons, hrest]

/-- **One more touch.** The first `n` after it, from the first `n` before it. -/
theorem take_recent_cons (history : List κ) (k : κ) (n : ℕ) :
    (recent (k :: history)).take (n + 1) =
      k :: if k ∈ (recent history).take (n + 1) then
          ((recent history).take (n + 1)).filter (· ≠ k)
        else ((recent history).take (n + 1)).take n := by
  rw [recent, List.take_succ_cons]
  congr 1
  split
  · next hk => exact (filter_take_of_mem (nodup_recent history) hk).symm
  · next hk =>
    rw [List.take_take, Nat.min_eq_left (Nat.le_succ n)]
    exact take_filter_of_not_mem hk

end Recency

end Relay
