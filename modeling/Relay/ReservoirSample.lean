import Mathlib.Algebra.BigOperators.Group.Finset.Sigma
import Mathlib.Algebra.BigOperators.Ring.Finset
import Mathlib.Algebra.Order.Ring.Int
import Mathlib.Data.Finset.Prod
import Mathlib.Data.List.GetD
import Mathlib.Data.List.Induction
import Mathlib.Data.List.Nodup
import Mathlib.Tactic.Ring
import Relay.Errors
import Relay.Lib.Machine

/-!
# Reservoir sampling

A sample of a fixed size from a stream of items, when it is not known how long the stream will be.
The first items fill the reservoir. For each later one an index is rolled among as many as have been
offered, and if it is the index of a slot, the item takes the place of the one there.

How the rolls come about is the caller's. A roll is a function that is given how many items have
been offered, and if there is none, it is the number itself, which is never a slot. So the sample is
a function of the items and of what is rolled at each offer, and to say that it is uniform is to
count: of all the sequences of rolls that are possible, each item is in the sample for the same
share.

## Scope

The note on how full the sample is is left out.

## Main definitions

* `Reservoir`, with `offer` and `sample`
* `rollSequences`: what may be rolled at the offers that roll

## Main results

* `sample_uniform`: every item is in the sample for the share of the sequences that is the size of
  the sample over the number of items
-/

namespace Relay

/-- A reservoir. -/
structure Reservoir (α : Type*) where
  size : ℤ
  reservoir : List α := []
  seen : ℤ := 0
  /-- A reservoir samples at least one item. -/
  size_pos : 1 ≤ size

namespace Reservoir

variable {α : Type*}

/-- `offer`. Without a roll the index is the number of items, which is no slot's. -/
def offer (sampler : Reservoir α) (item : α) (roll : Option (ℤ → ℤ)) : Reservoir α :=
  { sampler with
    seen := sampler.seen + 1
    reservoir :=
      if sampler.reservoir.length < sampler.size then
        sampler.reservoir ++ [item]
      else
        let picker := roll.getD fun n => n
        let j := picker (sampler.seen + 1)
        if 0 ≤ j ∧ j < sampler.size then sampler.reservoir.set j.toNat item
        else sampler.reservoir }

/-- `sample`. -/
def sample (sampler : Reservoir α) : List α := sampler.reservoir

/-- Items offered one after another, with one function for all rolls. -/
def offerAll (sampler : Reservoir α) (roll : ℤ → ℤ) (items : List α) : Reservoir α :=
  items.foldl (fun sampler item => sampler.offer item (some roll)) sampler

end Reservoir

/-! ## The sample -/

section Sample

variable {α : Type*} {k : ℕ} {hk : 1 ≤ (k : ℤ)} {roll roll' : ℤ → ℤ} {items : List α} {item : α}

/-- A reservoir of `k` slots after these items. -/
def sampler (k : ℕ) (hk : 1 ≤ (k : ℤ)) (roll : ℤ → ℤ) (items : List α) : Reservoir α :=
  Reservoir.offerAll { size := k, size_pos := hk } roll items

theorem sampler_append_singleton :
    sampler k hk roll (items ++ [item]) = (sampler k hk roll items).offer item (some roll) := by
  rw [sampler, Reservoir.offerAll, List.foldl_append]
  rfl

/-- What a reservoir holds after these items. -/
structure Holds (k : ℕ) (items : List α) (sampler : Reservoir α) : Prop where
  size_eq : sampler.size = k
  seen_eq : sampler.seen = items.length
  full : k ≤ items.length → sampler.reservoir.length = k
  filling : items.length ≤ k → sampler.reservoir = items
  nodup : items.Nodup → sampler.reservoir.Nodup
  subset : sampler.reservoir ⊆ items

theorem Holds.reservoir_offer {sampler : Reservoir α} (h : Holds k items sampler) (item : α)
    (roll : Option (ℤ → ℤ)) :
    (sampler.offer item roll).reservoir =
      if items.length < k then items ++ [item]
      else if 0 ≤ roll.getD (fun n => n) (items.length + 1) ∧
          roll.getD (fun n => n) (items.length + 1) < k then
        sampler.reservoir.set (roll.getD (fun n => n) (items.length + 1)).toNat item
      else sampler.reservoir := by
  show (if (sampler.reservoir.length : ℤ) < sampler.size then _ else if _ then _ else _) = _
  rw [h.size_eq, h.seen_eq]
  rcases lt_or_ge items.length k with hlt | hfull
  · rw [h.filling hlt.le, if_pos hlt, if_pos (by omega)]
  · rw [h.full hfull, if_neg (lt_irrefl _), if_neg (not_lt.mpr hfull)]

theorem Holds.offer {sampler : Reservoir α} (h : Holds k items sampler) (item : α)
    (roll : Option (ℤ → ℤ)) : Holds k (items ++ [item]) (sampler.offer item roll) := by
  have hoffer := h.reservoir_offer item roll
  have hlength : (items ++ [item]).length = items.length + 1 := by
    rw [List.length_append, List.length_singleton]
  rcases lt_or_ge items.length k with hlt | hfull
  · rw [if_pos hlt] at hoffer
    refine ⟨h.size_eq, ?_, fun hk => ?_, fun _ => hoffer, fun hnodup => hoffer ▸ hnodup,
      hoffer ▸ List.Subset.refl _⟩
    · rw [hlength, Nat.cast_add, ← h.seen_eq]
      rfl
    · rw [hoffer]
      omega
  · -- the item takes a slot, or none
    obtain ⟨j, hset⟩ : ∃ j, (sampler.offer item roll).reservoir = sampler.reservoir.set j item := by
      rw [if_neg (by omega)] at hoffer
      split at hoffer
      · exact ⟨_, hoffer⟩
      · exact ⟨k, hoffer.trans (List.set_eq_of_length_le (h.full hfull).le).symm⟩
    refine ⟨h.size_eq, ?_, fun _ => ?_, fun hk => ?_, fun hnodup => ?_, fun x hx => ?_⟩
    · rw [hlength, Nat.cast_add, ← h.seen_eq]
      rfl
    · rw [hset, List.length_set, h.full hfull]
    · omega
    · obtain ⟨hitems, -, hdisjoint⟩ := List.nodup_append.mp hnodup
      rw [hset]
      exact (h.nodup hitems).set fun hmem =>
        hdisjoint item (h.subset hmem) item (List.mem_singleton_self item) rfl
    · rw [hset] at hx
      rcases List.mem_or_eq_of_mem_set hx with hx | rfl
      · exact List.mem_append_left _ (h.subset hx)
      · exact List.mem_append_right _ (List.mem_singleton_self x)

theorem holds_sampler (hk : 1 ≤ (k : ℤ)) (roll : ℤ → ℤ) (items : List α) :
    Holds k items (sampler k hk roll items) := by
  induction items using List.reverseRecOn with
  | nil =>
    exact ⟨rfl, rfl, fun h => (Nat.le_zero.mp h).symm, fun _ => rfl, fun _ => .nil,
      List.Subset.refl _⟩
  | append_singleton items item ih =>
    rw [sampler_append_singleton]
    exact ih.offer item (some roll)

/-- Only what is rolled once the reservoir is full matters. -/
theorem sampler_congr (h : ∀ i : ℤ, k < i → i ≤ items.length → roll i = roll' i) :
    sampler k hk roll items = sampler k hk roll' items := by
  induction items using List.reverseRecOn with
  | nil => rfl
  | append_singleton items item ih =>
    rw [List.length_append, List.length_singleton] at h
    have hsame := ih fun i hi hle => h i hi (by omega)
    have hholds := holds_sampler hk roll' items
    rw [sampler_append_singleton, sampler_append_singleton, hsame]
    have hreservoir : ((sampler k hk roll' items).offer item (some roll)).reservoir =
        ((sampler k hk roll' items).offer item (some roll')).reservoir := by
      rw [hholds.reservoir_offer, hholds.reservoir_offer]
      split
      · rfl
      · simp only [Option.getD_some, h (items.length + 1) (by omega) (by omega)]
    simp only [Reservoir.offer] at hreservoir ⊢
    rw [hreservoir]

/-- When the reservoir is full, what is rolled is the index of the item that is replaced, and if
there is none at that index, none is. -/
theorem sampler_append_singleton_of_le (hfull : k ≤ items.length) {j : ℕ}
    (hroll : roll (items.length + 1) = j) :
    (sampler k hk roll (items ++ [item])).sample =
      (sampler k hk roll items).sample.set j item := by
  have hholds := holds_sampler hk roll items
  have hoffer := hholds.reservoir_offer item (some roll)
  rw [if_neg (by omega), Option.getD_some, hroll, Int.toNat_natCast] at hoffer
  rw [sampler_append_singleton]
  refine hoffer.trans ?_
  split
  · rfl
  · exact (List.set_eq_of_length_le ((hholds.full hfull).trans_le (by omega))).symm

end Sample

/-! ## Counting -/

/-- What may be rolled at `m` offers after the first `k`: at each, an index among as many as have
been offered. -/
def rollSequences (k : ℕ) : ℕ → Finset (List ℕ)
  | 0 => {[]}
  | m + 1 => (rollSequences k m ×ˢ Finset.range (k + m + 1)).image fun js => js.1 ++ [js.2]

/-- The roll that answers with a sequence, from the offer after the first `k` on. -/
def rollOf (k : ℕ) (js : List ℕ) (i : ℤ) : ℤ := js.getD (i - k - 1).toNat 0

section Count

variable {k m : ℕ}

/-- The sequences are all lists of this length of indices among as many as have been offered. -/
theorem mem_rollSequences {js : List ℕ} :
    js ∈ rollSequences k m ↔ js.length = m ∧ ∀ t j, js[t]? = some j → j < k + t + 1 := by
  induction m generalizing js with
  | zero =>
    rw [rollSequences, Finset.mem_singleton, List.length_eq_zero_iff]
    constructor
    · rintro rfl
      exact ⟨rfl, fun t j h => nomatch h⟩
    · exact And.left
  | succ m ih =>
    simp only [rollSequences, Finset.mem_image, Finset.mem_product, Finset.mem_range, Prod.exists,
      ih]
    constructor
    · rintro ⟨js, j, ⟨⟨hlength, hjs⟩, hj⟩, rfl⟩
      refine ⟨by rw [List.length_append, hlength]; rfl, fun t i hi => ?_⟩
      rcases getElem?_append_singleton_eq_some.mp hi with hi | ⟨rfl, rfl⟩
      · exact hjs t i hi
      · rwa [hlength]
    · rintro ⟨hlength, hjs⟩
      obtain ⟨init, j, rfl⟩ := List.eq_nil_or_concat' js |>.resolve_left (by
        rintro rfl
        exact absurd hlength (Nat.succ_ne_zero m).symm)
      have hinit : init.length = m := by
        rw [List.length_append, List.length_singleton] at hlength
        exact Nat.succ_injective hlength
      refine ⟨init, j, ⟨⟨hinit, fun t i hi => hjs t i ?_⟩, ?_⟩, rfl⟩
      · exact getElem?_append_singleton_eq_some.mpr (Or.inl hi)
      · rw [← hinit]
        exact hjs init.length j (getElem?_append_singleton_eq_some.mpr (Or.inr ⟨rfl, rfl⟩))

theorem sum_rollSequences_succ (f : List ℕ → ℕ) :
    ∑ js ∈ rollSequences k (m + 1), f js =
      ∑ js ∈ rollSequences k m, ∑ j ∈ Finset.range (k + m + 1), f (js ++ [j]) := by
  rw [rollSequences, Finset.sum_image, Finset.sum_product]
  rintro ⟨js, j⟩ - ⟨js', j'⟩ - h
  simpa using h

theorem card_rollSequences_succ :
    (rollSequences k (m + 1)).card = (rollSequences k m).card * (k + m + 1) := by
  have hsum := sum_rollSequences_succ (k := k) (m := m) fun _ => 1
  rwa [← Finset.card_eq_sum_ones, Finset.sum_const_nat fun _ _ => by
    rw [← Finset.card_eq_sum_ones, Finset.card_range]] at hsum

variable {α : Type*} {hk : 1 ≤ (k : ℤ)} {items : List α} {item x : α} {js : List ℕ}

/-- The sample of the items when the rolls answer with a sequence. -/
def sampleOf (k : ℕ) (hk : 1 ≤ (k : ℤ)) (items : List α) (js : List ℕ) : List α :=
  (sampler k hk (rollOf k js) items).sample

theorem sampleOf_append_singleton (hlength : items.length = k + js.length) (j : ℕ) :
    sampleOf k hk (items ++ [item]) (js ++ [j]) = (sampleOf k hk items js).set j item := by
  have hlast : rollOf k (js ++ [j]) (items.length + 1) = j := by
    have hindex : ((items.length + 1 : ℤ) - k - 1).toNat = js.length := by omega
    rw [rollOf, hindex, List.getD_append_right _ _ _ _ (Nat.le_refl _), Nat.sub_self]
    rfl
  have hinit : sampler k hk (rollOf k (js ++ [j])) items = sampler k hk (rollOf k js) items := by
    refine sampler_congr fun i hi hle => ?_
    rw [rollOf, rollOf, List.getD_append _ _ _ _ (by omega)]
  rw [sampleOf, sampler_append_singleton_of_le (by omega) hlast, hinit, sampleOf]

/-- An item that is in the sample stays in it, unless its index is rolled. -/
theorem mem_set_iff_of_ne {l : List α} (hnodup : l.Nodup) (hne : x ≠ item) (j : ℕ) :
    x ∈ l.set j item ↔ x ∈ l ∧ l[j]? ≠ some x := by
  simp only [List.mem_iff_getElem?, List.getElem?_set]
  constructor
  · rintro ⟨i, hi⟩
    split_ifs at hi with hji hj
    · exact absurd (Option.some.inj hi).symm hne
    · refine ⟨⟨i, hi⟩, fun hj => hji ?_⟩
      obtain ⟨hlt, -⟩ := List.getElem?_eq_some_iff.mp hj
      exact (List.getElem?_inj hlt hnodup).mp (hj.trans hi.symm)
  · rintro ⟨⟨i, hi⟩, hj⟩
    have hji : j ≠ i := fun hji => hj (hji ▸ hi)
    exact ⟨i, by rw [if_neg hji, hi]⟩

theorem mem_set_self_iff {l : List α} (hitem : item ∉ l) (j : ℕ) :
    item ∈ l.set j item ↔ j < l.length := by
  refine ⟨fun h => ?_, fun h => List.mem_set h item⟩
  by_contra hle
  rw [List.set_eq_of_length_le (not_lt.mp hle)] at h
  exact hitem h

variable [DecidableEq α]

/-- Of as many rolls as there are indices or more, all but one leave an item in the sample. -/
theorem sum_mem_set_of_ne {l : List α} (hnodup : l.Nodup) (hne : x ≠ item) {n : ℕ}
    (hlength : l.length ≤ n + 1) :
    (∑ j ∈ Finset.range (n + 1), if x ∈ l.set j item then 1 else 0) = if x ∈ l then n else 0 := by
  rw [← Finset.card_filter]
  split
  · next hx =>
    obtain ⟨t, ht⟩ := List.mem_iff_getElem?.mp hx
    obtain ⟨hlt, -⟩ := List.getElem?_eq_some_iff.mp ht
    have hfilter : (Finset.range (n + 1)).filter (fun j => x ∈ l.set j item) =
        (Finset.range (n + 1)).erase t := by
      ext j
      rw [Finset.mem_filter, Finset.mem_erase, mem_set_iff_of_ne hnodup hne]
      constructor
      · rintro ⟨hj, -, hstays⟩
        exact ⟨fun hjt => hstays (hjt ▸ ht), hj⟩
      · rintro ⟨hjt, hj⟩
        refine ⟨hj, hx, fun hj' => hjt ?_⟩
        exact ((List.getElem?_inj hlt hnodup).mp (ht.trans hj'.symm)).symm
    rw [hfilter, Finset.card_erase_of_mem (Finset.mem_range.mpr (hlt.trans_le hlength)),
      Finset.card_range, Nat.add_sub_cancel]
  · next hx =>
    refine Finset.card_eq_zero.mpr (Finset.filter_eq_empty_iff.mpr fun j _ hmem => hx ?_)
    exact ((mem_set_iff_of_ne hnodup hne j).mp hmem).1

/-- The rolls that take a new item into the sample are the indices of its slots. -/
theorem sum_mem_set_self {l : List α} (hitem : item ∉ l) {n : ℕ} (hlength : l.length ≤ n) :
    (∑ j ∈ Finset.range n, if item ∈ l.set j item then 1 else 0) = l.length := by
  have hfilter : (Finset.range n).filter (fun j => item ∈ l.set j item) =
      Finset.range l.length := by
    ext j
    rw [Finset.mem_filter, Finset.mem_range, Finset.mem_range, mem_set_self_iff hitem]
    omega
  rw [← Finset.card_filter, hfilter, Finset.card_range]

/-- The sequences of rolls that leave an item in the sample. -/
def sampledBy (k : ℕ) (hk : 1 ≤ (k : ℤ)) (items : List α) (m : ℕ) (x : α) : Finset (List ℕ) :=
  (rollSequences k m).filter fun js => x ∈ sampleOf k hk items js

theorem card_sampledBy (hk : 1 ≤ (k : ℤ)) (hnodup : items.Nodup) (hlength : items.length = k + m)
    (hx : x ∈ items) :
    (sampledBy k hk items m x).card * (k + m) = k * (rollSequences k m).card := by
  induction m generalizing items x with
  | zero =>
    have hsample (js : List ℕ) : sampleOf k hk items js = items :=
      (holds_sampler hk (rollOf k js) items).filling hlength.le
    simp [sampledBy, rollSequences, hsample, hx]
  | succ m ih =>
    obtain ⟨init, y, rfl⟩ := List.eq_nil_or_concat' items |>.resolve_left (List.ne_nil_of_mem hx)
    obtain ⟨hinit, -, hdisjoint⟩ := List.nodup_append.mp hnodup
    have hlength' : init.length = k + m := by
      rw [List.length_append, List.length_singleton] at hlength
      omega
    have hholds (js : List ℕ) := holds_sampler hk (rollOf k js) init
    have hfull : k ≤ init.length := by omega
    have hcount : (sampledBy k hk (init ++ [y]) (m + 1) x).card =
        ∑ js ∈ rollSequences k m, ∑ j ∈ Finset.range (k + m + 1),
          if x ∈ (sampleOf k hk init js).set j y then 1 else 0 := by
      rw [sampledBy, Finset.card_filter, sum_rollSequences_succ]
      refine Finset.sum_congr rfl fun js hjs => Finset.sum_congr rfl fun j _ => ?_
      rw [sampleOf_append_singleton (by rw [hlength', (mem_rollSequences.mp hjs).1])]
    have hsize (js : List ℕ) : (sampleOf k hk init js).length = k := (hholds js).full hfull
    rcases List.mem_append.mp hx with hx | hx
    · -- an earlier item: every sequence that has left it in the sample goes on in all ways but one
      have hne : x ≠ y := hdisjoint x hx y (List.mem_singleton_self y)
      have hstays : (sampledBy k hk (init ++ [y]) (m + 1) x).card =
          (sampledBy k hk init m x).card * (k + m) := by
        rw [hcount, sampledBy, Finset.card_filter, Finset.sum_mul]
        refine Finset.sum_congr rfl fun js _ => ?_
        have hsample : (sampleOf k hk init js).Nodup := (hholds js).nodup hinit
        rw [sum_mem_set_of_ne hsample hne (by rw [hsize]; omega), ite_mul, one_mul, zero_mul]
      rw [hstays, ih hinit hlength' hx, card_rollSequences_succ]
      ring
    · -- the new item: every sequence goes on to the index of a slot in as many ways as there are
      obtain rfl := List.mem_singleton.mp hx
      have hnew : (sampledBy k hk (init ++ [x]) (m + 1) x).card =
          (rollSequences k m).card * k := by
        rw [hcount, Finset.sum_const_nat fun js _ => ?_]
        rw [sum_mem_set_self (fun hmem => ?_) (by rw [hsize]; omega), hsize]
        exact hdisjoint x ((hholds js).subset hmem) x (List.mem_singleton_self x) rfl
      rw [hnew, card_rollSequences_succ]
      ring

end Count

/-- **Reservoir sampling is uniform.** When at least `k` items that are distinct have been offered
to a reservoir of `k` slots, every item is in the sample for `k` out of `n` of all the sequences of
rolls, where `n` is the number of items. And whatever is rolled, the sample holds `k` distinct items
of those offered. -/
theorem sample_uniform {α : Type*} [DecidableEq α] (k : ℕ) (hk : 1 ≤ (k : ℤ)) (items : List α)
    (hnodup : items.Nodup) (hlength : k ≤ items.length) :
    (∀ js, js ∈ rollSequences k (items.length - k) ↔
        js.length = items.length - k ∧ ∀ t j, js[t]? = some j → j < k + t + 1) ∧
      (∀ x ∈ items,
        ((rollSequences k (items.length - k)).filter fun js =>
            x ∈ (sampler k hk (rollOf k js) items).sample).card * items.length =
          k * (rollSequences k (items.length - k)).card) ∧
      ∀ roll : ℤ → ℤ, (sampler k hk roll items).sample.length = k ∧
        (sampler k hk roll items).sample.Nodup ∧ (sampler k hk roll items).sample ⊆ items := by
  refine ⟨fun js => mem_rollSequences, fun x hx => ?_, fun roll => ?_⟩
  · have hsum : k + (items.length - k) = items.length := Nat.add_sub_cancel' hlength
    have hcard := card_sampledBy hk hnodup hsum.symm hx
    rwa [hsum] at hcard
  · have hholds := holds_sampler hk roll items
    exact ⟨hholds.full hlength, hholds.nodup hnodup, hholds.subset⟩

/-- Two slots and four items. -/
theorem sample_uniform_two_of_four :
    ((rollSequences 2 2).filter fun js =>
      3 ∈ (sampler 2 (by decide) (rollOf 2 js) [1, 2, 3, 4]).sample).card * 4 =
        2 * (rollSequences 2 2).card :=
  (sample_uniform 2 (by decide) [1, 2, 3, 4] (by decide) (by decide)).2.1 3 (by decide)

end Relay
