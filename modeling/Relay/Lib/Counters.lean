import Mathlib.Algebra.BigOperators.Group.Finset.Basic
import Mathlib.Algebra.Ring.Int.Defs
import Mathlib.Data.Int.Order.Basic
import Relay.Lib.Causal
import Relay.Lib.Dict

/-!
# Dictionaries of counters

A dictionary of integers, read with a default of zero, is a family of counters that are zero
almost everywhere. Two such dictionaries are merged by taking the larger count at each key of the
second one. As long as no count of the first is negative, the result is the larger count at every
key, the absent ones included.

Replicas use such dictionaries with one counter for each site. What the counters of a replica hold
is then what the events it knows of add up to, site by site (`Tallies`), and merging keeps this:
of one site's events, one of two pasts knows all that the other knows.

## Main definitions

* `Dict.count`, `Dict.mergeMax`, `Dict.total`
* `Tallies`

## Main results

* `Dict.count_mergeMax`
* `Dict.total_eq_sum`: the values add up to the counts
* `Dict.total_set`, `Dict.total_erase`: the total after one count is set or deleted
* `Dict.count_foldl_increment`: some keys counted once more
* `Tallies.merge`, `Tallies.total_eq`
-/

namespace Relay

namespace Dict

variable {α : Type*} [DecidableEq α]

/-- The count at a key. -/
def count (d : Dict α ℤ) (a : α) : ℤ := d.getD a 0

/-- Raise the count at each key of `e` to what it is in `e`. -/
def mergeMax (d e : Dict α ℤ) : Dict α ℤ := mergeWith max 0 d e

/-- All counts together. -/
def total (d : Dict α ℤ) : ℤ := d.values.sum

theorem count_set (d : Dict α ℤ) (a : α) (n : ℤ) (k : α) :
    (d.set a n).count k = if k = a then n else d.count k :=
  d.getD_set a n k 0

/-- What is not in the dictionary is not counted. -/
theorem count_of_not_mem_keys {d : Dict α ℤ} {a : α} (ha : a ∉ d.keys) : d.count a = 0 :=
  getD_of_not_mem_keys ha 0

/-- **Merged counters.** Each counter is the larger of the two. -/
theorem count_mergeMax (d e : Dict α ℤ) {k : α} (hk : 0 ≤ d.count k) :
    (d.mergeMax e).count k = max (d.count k) (e.count k) :=
  getD_mergeWith d e (max_eq_left hk)

/-- The values add up to the lookups, over any keys that include all those present. -/
theorem sum_values_eq {β : Type*} [AddCommMonoid β] (d : Dict α β) {s : Finset α}
    (hs : ∀ a ∈ d.keys, a ∈ s) : d.values.sum = ∑ a ∈ s, d.getD a 0 := by
  have hkeys : d.keys.toFinset ⊆ s := fun a ha => hs a (List.mem_toFinset.mp ha)
  have hnodup : d.keys.Nodup := d.nodup
  rw [d.values_eq_map_keys 0, ← List.sum_toFinset _ hnodup]
  refine Finset.sum_subset hkeys fun a _ ha => ?_
  rw [List.mem_toFinset] at ha
  exact getD_of_not_mem_keys ha 0

/-- The total is the sum of the counts, over any keys that include all those present. -/
theorem total_eq_sum (d : Dict α ℤ) {s : Finset α} (hs : ∀ a ∈ d.keys, a ∈ s) :
    d.total = ∑ a ∈ s, d.count a :=
  d.sum_values_eq hs

/-- Setting one count changes the total by as much as it changes the count. -/
theorem total_set (d : Dict α ℤ) (a : α) (n : ℤ) :
    (d.set a n).total = d.total - d.count a + n := by
  have hentries (es : List (α × ℤ)) : ((setEntries a n es).map Prod.snd).sum =
      (es.map Prod.snd).sum - (es.lookup a).getD 0 + n := by
    induction es with
    | nil => simp [setEntries]
    | cons e es ih =>
      obtain ⟨x, y⟩ := e
      rw [setEntries, lookup_cons_ite, List.map_cons, List.sum_cons]
      by_cases hx : x = a
      · rw [if_pos hx, if_pos hx.symm, List.map_cons, List.sum_cons, Option.getD_some]
        omega
      · rw [if_neg hx, if_neg (Ne.symm hx), List.map_cons, List.sum_cons, ih]
        omega
  exact hentries d.entries

/-- Only the counts make the total. -/
theorem total_congr {d e : Dict α ℤ} (h : ∀ a, d.count a = e.count a) : d.total = e.total := by
  have hd : ∀ a ∈ d.keys, a ∈ (d.keys ++ e.keys).toFinset := fun a ha =>
    List.mem_toFinset.mpr (List.mem_append_left _ ha)
  have he : ∀ a ∈ e.keys, a ∈ (d.keys ++ e.keys).toFinset := fun a ha =>
    List.mem_toFinset.mpr (List.mem_append_right _ ha)
  rw [d.total_eq_sum hd, e.total_eq_sum he]
  exact Finset.sum_congr rfl fun a _ => h a

/-- Deleting a key takes its count off the total. -/
theorem total_erase (d : Dict α ℤ) (a : α) : (d.erase a).total = d.total - d.count a := by
  rw [← add_zero (d.total - d.count a), ← total_set]
  refine total_congr fun k => ?_
  rw [count_set, count, getD, get?_erase, count, getD]
  split <;> rfl

/-- Some keys counted once more each, in any order. -/
theorem count_foldl_increment (d : Dict α ℤ) {as : List α} (has : as.Nodup) (k : α) :
    (as.foldl (fun d a => d.set a (d.count a + 1)) d).count k =
      d.count k + if k ∈ as then 1 else 0 := by
  induction as generalizing d with
  | nil => simp
  | cons a as ih =>
    rw [List.nodup_cons] at has
    rw [List.foldl_cons, ih _ has.2, count_set]
    by_cases hk : k = a
    · simp [hk, has.1]
    · simp [hk]

/-- Counting keys that are present once more does not add any key. -/
theorem mem_keys_foldl_increment {d : Dict α ℤ} {as : List α} (has : ∀ a ∈ as, a ∈ d.keys) {k : α} :
    k ∈ (as.foldl (fun d a => d.set a (d.count a + 1)) d).keys ↔ k ∈ d.keys := by
  induction as generalizing d with
  | nil => rfl
  | cons a as ih =>
    have hkeys (b : α) (n : ℤ) : b ∈ (d.set a n).keys ↔ b ∈ d.keys := by
      rw [mem_keys_set]
      exact or_iff_right_of_imp fun hb => hb ▸ has a List.mem_cons_self
    rw [List.foldl_cons, ih fun b hb => (hkeys b _).mpr (has b (List.mem_cons_of_mem a hb)), hkeys]

end Dict

/-! ## One counter for each site -/

/-- The counters are what the events `H` add up to, site by site. -/
def Tallies {ι ω : Type*} [DecidableEq ι] (acts : List (Action ι ω)) (weight : ℕ → ℤ)
    (H : Finset ℕ) (d : Dict ι ℤ) : Prop :=
  ∀ site, d.count site = tally acts weight H site

namespace Tallies

variable {ι ω : Type*} [DecidableEq ι] {acts : List (Action ι ω)} {weight weight' : ℕ → ℤ}
  {H H' : Finset ℕ} {d e : Dict ι ℤ}

theorem empty (acts : List (Action ι ω)) (weight : ℕ → ℤ) :
    Tallies acts weight ∅ (∅ : Dict ι ℤ) := fun _ => rfl

/-- Actions elsewhere do not matter. -/
theorem extend (h : Tallies acts weight H d) (hH : ∀ a ∈ H, a < acts.length) (x : Action ι ω)
    (hweight : ∀ a < acts.length, weight' a = weight a) : Tallies (acts ++ [x]) weight' H d := by
  intro site
  rw [h site, tally_append_singleton hH x hweight]

/-- The counter of the newest action's site grows by the action's weight. -/
theorem grow (h : Tallies acts weight H d) (hH : ∀ a ∈ H, a < acts.length) (x : Action ι ω)
    (hweight : ∀ a < acts.length, weight' a = weight a) :
    Tallies (acts ++ [x]) weight' (insert acts.length H)
      (d.set x.site (d.count x.site + weight' acts.length)) := by
  intro site
  rw [tally_insert_length hH x hweight, ← h site, Dict.count_set]
  split
  · next hsite => rw [hsite]
  · rw [add_zero]

/-- An action without weight changes no counter. -/
theorem keep (h : Tallies acts weight H d) (hH : ∀ a ∈ H, a < acts.length) (x : Action ι ω)
    (hweight : ∀ a < acts.length, weight' a = weight a) (hzero : weight' acts.length = 0) :
    Tallies (acts ++ [x]) weight' (insert acts.length H) d := by
  intro site
  rw [tally_insert_length hH x hweight, ← h site, hzero, ite_self, add_zero]

/-- **Merging counters.** Merged counters hold what the two pasts together add up to. -/
theorem merge (h : Tallies acts weight H d) (h' : Tallies acts weight H' e) (hH : IsPast acts H)
    (hH' : IsPast acts H') (hweight : ∀ a, 0 ≤ weight a) :
    Tallies acts weight (H ∪ H') (d.mergeMax e) := by
  intro site
  have hcount : 0 ≤ d.count site := by
    rw [h site]
    exact tally_nonneg hweight
  rw [tally_union hH hH' hweight, ← h site, ← h' site, Dict.count_mergeMax d e hcount]

/-- All counters together hold what all the events add up to. -/
theorem total_eq (h : Tallies acts weight H d) (hH : IsPast acts H) :
    d.total = ∑ a ∈ H, weight a := by
  have hsites : ∀ x ∈ acts, x.site ∈ d.keys.toFinset ∪ (acts.map Action.site).toFinset := by
    intro x hx
    exact Finset.mem_union_right _ (List.mem_toFinset.mpr (List.mem_map_of_mem hx))
  rw [d.total_eq_sum fun a ha => Finset.mem_union_left _ (List.mem_toFinset.mpr ha),
    ← sum_tally hH hsites]
  exact Finset.sum_congr rfl fun site _ => h site

end Tallies

end Relay
