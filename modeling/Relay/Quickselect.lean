import Mathlib.Algebra.Order.Ring.Int
import Mathlib.Data.List.Basic
import Mathlib.Order.Lattice
import Relay.Errors
import Relay.Lib.Ranks

/-!
# Quickselect

The `k`-th smallest of some values, without sorting them. Around a pivot, which is the median of the
first, the middle and the last value of a section, the values of the section are swapped until those
on the left are no greater than the pivot and those on the right no smaller. The search goes on in
the side that holds rank `k`, and there are values between the sides that are equal to the pivot: if
rank `k` is among them it is found.

The two scans of the partition have no bounds of their own. What stops them is a value somewhere
ahead of them, the pivot itself at first, and later a value that has been swapped there. Here an
access outside the values has no result, for an index below zero too, where the interpreter would
count from the end; so a scan that left the section would show.

The values are copied before they are moved, and the caller's are not touched.

## Scope

The percentile is left out: it takes its rank by a float, and then selects as here. So is the note.

## Main definitions

* `kthSmallest`, with the scans `scanUp` and `scanDown`, `partitionLoop` and `selectionLoop`

## Main results

* `Partitioning.partitionLoop`: the partition ends, inside the section, with its ends crossed
* `kthSmallest_eq`: the `k`-th smallest value is the one at `k` when the values are sorted
-/

namespace Relay

namespace Quickselect

variable {α : Type*}

/-- The value at an index, if the index is not outside the values. -/
def get? (data : Array α) (i : ℤ) : Option α :=
  if 0 ≤ i then data[i.toNat]? else none

theorem lt_size_of_get? {data : Array α} {i : ℤ} {x : α} (h : get? data i = some x) :
    0 ≤ i ∧ i < data.size := by
  rw [get?] at h
  split at h
  · next hi =>
    obtain ⟨hlt, -⟩ := Array.getElem?_eq_some_iff.mp h
    omega
  · exact nomatch h

theorem exists_get? {data : Array α} {i : ℤ} (hi : 0 ≤ i) (hsize : i < data.size) :
    ∃ x, get? data i = some x := by
  rw [get?, if_pos hi]
  exact ⟨_, Array.getElem?_eq_getElem (by omega)⟩

theorem get?_swapIfInBounds {data : Array α} {l r : ℤ} (hl : 0 ≤ l) (hl' : l < data.size)
    (hr : 0 ≤ r) (hr' : r < data.size) (i : ℤ) :
    get? (data.swapIfInBounds l.toNat r.toNat) i =
      if i = r then get? data l else if i = l then get? data r else get? data i := by
  have hswap : data.swapIfInBounds l.toNat r.toNat =
      data.swap l.toNat r.toNat (by omega) (by omega) := by
    rw [Array.swapIfInBounds_def, dif_pos (by omega), dif_pos (by omega)]
  rw [hswap]
  unfold get?
  rw [if_pos hl, if_pos hr]
  split
  · next hi =>
    have hil : l.toNat = i.toNat ↔ i = l := by omega
    have hir : r.toNat = i.toNat ↔ i = r := by omega
    rw [Array.getElem?_swap, Array.getElem?_eq_getElem (i := l.toNat) (by omega),
      Array.getElem?_eq_getElem (i := r.toNat) (by omega)]
    simp only [hil, hir]
  · next hi => rw [if_neg (by omega), if_neg (by omega)]

variable [LinearOrder α]

/-- `_median_of_three`. -/
def medianOfThree (data : Array α) (lo hi : ℤ) : Option α := do
  let first ← get? data lo
  let middle ← get? data ((lo + hi) / 2)
  let last ← get? data hi
  ([first, middle, last].mergeSort fun a b => a ≤ b)[1]?

/-- The scan from the left, to a value that is no smaller than the pivot. -/
def scanUp (data : Array α) (pivot : α) (left : ℤ) : Option ℤ :=
  match _h : get? data left with
  | none => none
  | some x => if x < pivot then scanUp data pivot (left + 1) else some left
termination_by (data.size - left).toNat
decreasing_by
  have := lt_size_of_get? _h
  omega

/-- The scan from the right, to a value that is no greater than the pivot. -/
def scanDown (data : Array α) (pivot : α) (right : ℤ) : Option ℤ :=
  match _h : get? data right with
  | none => none
  | some x => if x > pivot then scanDown data pivot (right - 1) else some right
termination_by (right + 1).toNat
decreasing_by
  have := lt_size_of_get? _h
  omega

section Scans

variable {data : Array α} {pivot : α} {left right l r : ℤ}

/-- A scan from the left passes smaller values, and stops at the first that is not smaller. -/
structure ScansUp (data : Array α) (pivot : α) (left l : ℤ) : Prop where
  start_le : left ≤ l
  stops : ∃ x, get? data l = some x ∧ pivot ≤ x
  passes : ∀ j, left ≤ j → j < l → ∃ x, get? data j = some x ∧ x < pivot

/-- A scan from the right passes greater values, and stops at the first that is not greater. -/
structure ScansDown (data : Array α) (pivot : α) (right r : ℤ) : Prop where
  le_start : r ≤ right
  stops : ∃ x, get? data r = some x ∧ x ≤ pivot
  passes : ∀ j, r < j → j ≤ right → ∃ x, get? data j = some x ∧ pivot < x

theorem scanUp_eq_some (h : scanUp data pivot left = some l) : ScansUp data pivot left l := by
  induction left using scanUp.induct data pivot with
  | case1 left hnone =>
    rw [scanUp, hnone] at h
    exact nomatch h
  | case2 left x hx hlt ih =>
    rw [scanUp, hx] at h
    obtain ⟨hle, hstop, hpassed⟩ := ih ((if_pos hlt).symm.trans h)
    refine ⟨by omega, hstop, fun j hj hjl => ?_⟩
    rcases hj.eq_or_lt with rfl | hj
    · exact ⟨x, hx, hlt⟩
    · exact hpassed j hj hjl
  | case3 left x hx hle =>
    rw [scanUp, hx] at h
    obtain rfl := Option.some.inj ((if_neg hle).symm.trans h)
    exact ⟨le_refl _, ⟨x, hx, not_lt.mp hle⟩, fun j hj hjl => absurd hj (not_le.mpr hjl)⟩

theorem scanDown_eq_some (h : scanDown data pivot right = some r) :
    ScansDown data pivot right r := by
  induction right using scanDown.induct data pivot with
  | case1 right hnone =>
    rw [scanDown, hnone] at h
    exact nomatch h
  | case2 right x hx hgt ih =>
    rw [scanDown, hx] at h
    obtain ⟨hle, hstop, hpassed⟩ := ih ((if_pos hgt).symm.trans h)
    refine ⟨by omega, hstop, fun j hjr hj => ?_⟩
    rcases hj.eq_or_lt with rfl | hj
    · exact ⟨x, hx, hgt⟩
    · exact hpassed j hjr (by omega)
  | case3 right x hx hle =>
    rw [scanDown, hx] at h
    obtain rfl := Option.some.inj ((if_neg hle).symm.trans h)
    exact ⟨le_refl _, ⟨x, hx, not_lt.mp hle⟩, fun j hjr hj => absurd hj (not_le.mpr hjr)⟩

/-- A scan does not get past a value that is no smaller. -/
theorem ScansUp.le_of_get? (h : ScansUp data pivot left l) {i : ℤ} {x : α} (hi : left ≤ i)
    (hx : get? data i = some x) (hle : pivot ≤ x) : l ≤ i := by
  by_contra hlt
  obtain ⟨y, hy, hsmall⟩ := h.passes i hi (not_le.mp hlt)
  rw [hx] at hy
  exact absurd hle (not_le.mpr (Option.some.inj hy ▸ hsmall))

theorem ScansDown.le_of_get? (h : ScansDown data pivot right r) {i : ℤ} {x : α} (hi : i ≤ right)
    (hx : get? data i = some x) (hle : x ≤ pivot) : i ≤ r := by
  by_contra hlt
  obtain ⟨y, hy, hlarge⟩ := h.passes i (not_le.mp hlt) hi
  rw [hx] at hy
  exact absurd hle (not_le.mpr (Option.some.inj hy ▸ hlarge))

/-- With such a value ahead, a scan that starts inside stops. -/
theorem exists_scanUp {i : ℤ} {x : α} (hleft : 0 ≤ left) (hi : left ≤ i)
    (hx : get? data i = some x) (hle : pivot ≤ x) : ∃ l, scanUp data pivot left = some l := by
  induction left using scanUp.induct data pivot with
  | case1 left hnone =>
    obtain ⟨y, hy⟩ := exists_get? hleft (hi.trans_lt (lt_size_of_get? hx).2)
    exact nomatch hnone.symm.trans hy
  | case2 left y hy hlt ih =>
    rw [scanUp, hy]
    refine Exists.imp (fun l hl => (if_pos hlt).trans hl) (ih (by omega) ?_)
    rcases hi.eq_or_lt with rfl | hi
    · rw [hx] at hy
      exact absurd hle (not_le.mpr (Option.some.inj hy ▸ hlt))
    · exact hi
  | case3 left y hy hge =>
    rw [scanUp, hy]
    exact ⟨left, if_neg hge⟩

theorem exists_scanDown {i : ℤ} {x : α} (hright : right < data.size) (hi : i ≤ right)
    (hx : get? data i = some x) (hle : x ≤ pivot) : ∃ r, scanDown data pivot right = some r := by
  induction right using scanDown.induct data pivot with
  | case1 right hnone =>
    obtain ⟨y, hy⟩ := exists_get? ((lt_size_of_get? hx).1.trans hi) hright
    exact nomatch hnone.symm.trans hy
  | case2 right y hy hgt ih =>
    rw [scanDown, hy]
    refine Exists.imp (fun r hr => (if_pos hgt).trans hr) (ih (by omega) ?_)
    rcases hi.eq_or_lt with rfl | hi
    · rw [hx] at hy
      exact absurd hle (not_le.mpr (Option.some.inj hy ▸ hgt))
    · omega
  | case3 right y hy hge =>
    rw [scanDown, hy]
    exact ⟨right, if_neg hge⟩

end Scans

/-- The partition of a section around the pivot. -/
def partitionLoop (pivot : α) (data : Array α) (left right : ℤ) : Option (Array α × ℤ × ℤ) :=
  if left ≤ right then
    match _hup : scanUp data pivot left, _hdown : scanDown data pivot right with
    | some l, some r =>
      if l ≤ r then
        partitionLoop pivot (data.swapIfInBounds l.toNat r.toNat) (l + 1) (r - 1)
      else
        partitionLoop pivot data l r
    | _, _ => none
  else
    some (data, left, right)
termination_by (right + 1 - left).toNat
decreasing_by
  all_goals
    have := (scanUp_eq_some _hup).start_le
    have := (scanDown_eq_some _hdown).le_start
    omega

section Progress

variable {data data' : Array α} {pivot : α} {lo hi left right l r : ℤ}

/-- One round of the partition, if both scans stop. -/
theorem partitionLoop_of_scans (hle : left ≤ right) (hup : scanUp data pivot left = some l)
    (hdown : scanDown data pivot right = some r) :
    partitionLoop pivot data left right =
      if l ≤ r then partitionLoop pivot (data.swapIfInBounds l.toNat r.toNat) (l + 1) (r - 1)
      else partitionLoop pivot data l r := by
  rw [partitionLoop, if_pos hle]
  split
  · next l' r' hup' hdown' =>
    obtain rfl : l = l' := Option.some.inj (hup.symm.trans hup')
    obtain rfl : r = r' := Option.some.inj (hdown.symm.trans hdown')
    rfl
  · next hnone => exact absurd hdown (hnone l r hup)

/-- The two ends of a partition only move towards each other. -/
theorem partitionLoop_mono (h : partitionLoop pivot data left right = some (data', l, r)) :
    left ≤ l ∧ r ≤ right := by
  induction data, left, right using partitionLoop.induct pivot with
  | case1 data left right hle l' r' hup hdown hmeet ih =>
    rw [partitionLoop_of_scans hle hup hdown, if_pos hmeet] at h
    have := (scanUp_eq_some hup).start_le
    have := (scanDown_eq_some hdown).le_start
    have := ih h
    omega
  | case2 data left right hle l' r' hup hdown hmeet ih =>
    rw [partitionLoop_of_scans hle hup hdown, if_neg hmeet] at h
    have := (scanUp_eq_some hup).start_le
    have := (scanDown_eq_some hdown).le_start
    have := ih h
    omega
  | case3 data left right hle hscan =>
    rw [partitionLoop, if_pos hle] at h
    split at h
    · next l' r' hup hdown => exact absurd hdown (hscan l' r' hup)
    · exact nomatch h
  | case4 data left right hle =>
    rw [partitionLoop, if_neg hle] at h
    cases h
    exact ⟨le_refl _, le_refl _⟩

theorem exists_of_medianOfThree (hle : lo ≤ hi) (h : medianOfThree data lo hi = some pivot) :
    ∃ i, lo ≤ i ∧ i ≤ hi ∧ get? data i = some pivot := by
  simp only [medianOfThree, Option.bind_eq_bind, Option.bind_eq_some_iff] at h
  obtain ⟨first, hfirst, middle, hmiddle, last, hlast, hpivot⟩ := h
  have hmem := List.mem_mergeSort.mp (List.mem_of_getElem? hpivot)
  simp only [List.mem_cons, List.not_mem_nil, or_false] at hmem
  rcases hmem with rfl | rfl | rfl
  · exact ⟨lo, le_refl _, hle, hfirst⟩
  · exact ⟨(lo + hi) / 2, by omega, by omega, hmiddle⟩
  · exact ⟨hi, hle, le_refl _, hlast⟩

/-- A partition around a value of the section makes it shorter at both ends: the scans meet at that
value or before, so there is a swap. -/
theorem partitionLoop_progress (hle : lo ≤ hi) (hpivot : medianOfThree data lo hi = some pivot)
    (h : partitionLoop pivot data lo hi = some (data', left, right)) : lo < left ∧ right < hi := by
  obtain ⟨i, hlo, hhi, hget⟩ := exists_of_medianOfThree hle hpivot
  rw [partitionLoop, if_pos hle] at h
  split at h
  · next l r hup hdown =>
    have hl := (scanUp_eq_some hup).le_of_get? hlo hget (le_refl pivot)
    have hr := (scanDown_eq_some hdown).le_of_get? hhi hget (le_refl pivot)
    rw [if_pos (hl.trans hr)] at h
    have := (scanUp_eq_some hup).start_le
    have := (scanDown_eq_some hdown).le_start
    have := partitionLoop_mono h
    omega
  · exact nomatch h

end Progress

/-- The loop of `kth_smallest`, which goes on in the side that holds rank `k`. -/
def selectionLoop (k : ℤ) (data : Array α) (lo hi : ℤ) : Option α :=
  if _hlt : lo < hi then
    match _hpivot : medianOfThree data lo hi with
    | none => none
    | some pivot =>
      match _hpart : partitionLoop pivot data lo hi with
      | none => none
      | some (data', left, right) =>
        if k ≤ right then selectionLoop k data' lo right
        else if k ≥ left then selectionLoop k data' left hi
        else get? data' k
  else
    get? data lo
termination_by (hi - lo).toNat
decreasing_by
  all_goals
    have := partitionLoop_progress (by omega) _hpivot _hpart
    omega

/-- `kth_smallest`. The values are a copy of the caller's. -/
def kthSmallest (values : List α) (k : ℤ) : Except RelayError (Option α) :=
  if values = [] then
    .error (.invalid "there is no k-th smallest of an empty batch")
  else if 0 ≤ k ∧ k < values.length then
    .ok (selectionLoop k values.toArray 0 (values.length - 1))
  else
    .error (.invalid s!"rank {k} is out of range 0..{values.length - 1}")

/-! ## Swaps -/

section Swap

variable {data : Array α} {c l r i : ℤ}

/-- No value before the cut is greater than one behind it. -/
def Cut (data : Array α) (c : ℤ) : Prop :=
  ∀ i j x y, i < c → c ≤ j → get? data i = some x → get? data j = some y → x ≤ y

/-- A swap on one side of a cut. -/
theorem Cut.swap (h : Cut data c) (hl : 0 ≤ l) (hl' : l < data.size) (hr : 0 ≤ r)
    (hr' : r < data.size) (hside : l < c ↔ r < c) :
    Cut (data.swapIfInBounds l.toNat r.toNat) c := by
  have hfrom (i : ℤ) :
      ∃ i', (i' < c ↔ i < c) ∧ get? (data.swapIfInBounds l.toNat r.toNat) i = get? data i' := by
    rw [get?_swapIfInBounds hl hl' hr hr']
    split
    · next hi => exact ⟨l, hi ▸ hside, rfl⟩
    · split
      · next hi => exact ⟨r, hi ▸ hside.symm, rfl⟩
      · exact ⟨i, Iff.rfl, rfl⟩
  intro i j x y hi hj hx hy
  obtain ⟨i', hi', hx'⟩ := hfrom i
  obtain ⟨j', hj', hy'⟩ := hfrom j
  exact h i' j' x y (hi'.mpr hi) (not_lt.mp fun hlt => absurd (hj'.mp hlt) (not_lt.mpr hj))
    (hx'.symm.trans hx) (hy'.symm.trans hy)

end Swap

/-! ## The partition -/

/-- A section of the values, rearranged: all values before it are no greater than those in it or
behind it, and all behind it no smaller. -/
structure Section (values : List α) (lo hi : ℤ) (data : Array α) : Prop where
  lo_nonneg : 0 ≤ lo
  hi_lt : hi < data.size
  cut_lo : Cut data lo
  cut_hi : Cut data (hi + 1)
  perm : data.toList.Perm values

/-- Where a partition of a section stands. Behind the left end nothing is greater than the pivot,
and behind the right end nothing is smaller. While the ends have not crossed, there is something
ahead of each that stops its scan. -/
structure Partitioning (values : List α) (pivot : α) (lo hi : ℤ) (data : Array α) (left right : ℤ) :
    Prop extends Section values lo hi data where
  lo_le : lo ≤ left
  le_hi : right ≤ hi
  below : ∀ i x, lo ≤ i → i < left → get? data i = some x → x ≤ pivot
  above : ∀ i x, right < i → i ≤ hi → get? data i = some x → pivot ≤ x
  stops_up : left ≤ right → ∃ i x, left ≤ i ∧ i ≤ hi ∧ get? data i = some x ∧ pivot ≤ x
  stops_down : left ≤ right → ∃ i x, lo ≤ i ∧ i ≤ right ∧ get? data i = some x ∧ x ≤ pivot

section Partition

variable {values : List α} {pivot : α} {data : Array α} {lo hi left right l r : ℤ}

theorem Section.swap (h : Section values lo hi data) (hl : lo ≤ l) (hl' : l ≤ hi) (hr : lo ≤ r)
    (hr' : r ≤ hi) : Section values lo hi (data.swapIfInBounds l.toNat r.toNat) := by
  have hlo := h.lo_nonneg
  have hhi := h.hi_lt
  refine ⟨hlo, by rwa [Array.size_swapIfInBounds], ?_, ?_, ?_⟩
  · exact h.cut_lo.swap (by omega) (by omega) (by omega) (by omega) (by omega)
  · exact h.cut_hi.swap (by omega) (by omega) (by omega) (by omega) (by omega)
  · rw [Array.swapIfInBounds_def, dif_pos (by omega), dif_pos (by omega)]
    exact (Array.perm_iff_toList_perm.mp (Array.swap_perm _ _)).trans h.perm

/-- Behind where a scan has stopped, nothing is on the wrong side. -/
theorem Partitioning.le_of_scansUp (h : Partitioning values pivot lo hi data left right)
    (hup : ScansUp data pivot left l) {i : ℤ} {x : α} (hi : lo ≤ i) (hil : i < l)
    (hx : get? data i = some x) : x ≤ pivot := by
  rcases lt_or_ge i left with hleft | hleft
  · exact h.below i x hi hleft hx
  · obtain ⟨y, hy, hsmall⟩ := hup.passes i hleft hil
    exact Option.some.inj (hx.symm.trans hy) ▸ hsmall.le

theorem Partitioning.ge_of_scansDown (h : Partitioning values pivot lo hi data left right)
    (hdown : ScansDown data pivot right r) {i : ℤ} {x : α} (hir : r < i) (hihi : i ≤ hi)
    (hx : get? data i = some x) : pivot ≤ x := by
  rcases le_or_gt i right with hright | hright
  · obtain ⟨y, hy, hlarge⟩ := hdown.passes i hir hright
    exact Option.some.inj (hx.symm.trans hy) ▸ hlarge.le
  · exact h.above i x hright hihi hx

/-- The two values that stopped the scans change places, and each of them stops the other scan. -/
theorem Partitioning.swap (h : Partitioning values pivot lo hi data left right)
    (hup : ScansUp data pivot left l) (hdown : ScansDown data pivot right r) (hmeet : l ≤ r) :
    Partitioning values pivot lo hi (data.swapIfInBounds l.toNat r.toNat) (l + 1) (r - 1) := by
  obtain ⟨x, hx, hxpivot⟩ := hup.stops
  obtain ⟨y, hy, hypivot⟩ := hdown.stops
  have hlo := h.lo_le.trans hup.start_le
  have hhi := hdown.le_start.trans h.le_hi
  have hget := get?_swapIfInBounds (lt_size_of_get? hx).1 (lt_size_of_get? hx).2
    (lt_size_of_get? hy).1 (lt_size_of_get? hy).2
  refine ⟨h.toSection.swap hlo (hmeet.trans hhi) (hlo.trans hmeet) hhi, by omega, by omega,
    fun i z hi hil hz => ?_, fun i z hir hi hz => ?_, fun hcross => ?_, fun hcross => ?_⟩
  · rw [hget] at hz
    split_ifs at hz with hir hil'
    · -- both scans stopped at the same value
      obtain rfl : l = r := by omega
      obtain rfl := Option.some.inj (hx.symm.trans hy)
      exact Option.some.inj (hx.symm.trans hz) ▸ hypivot
    · exact Option.some.inj (hy.symm.trans hz) ▸ hypivot
    · exact h.le_of_scansUp hup hi (by omega) hz
  · rw [hget] at hz
    split_ifs at hz with hir' hil
    · exact Option.some.inj (hx.symm.trans hz) ▸ hxpivot
    · obtain rfl : l = r := by omega
      exact absurd hil hir'
    · exact h.ge_of_scansDown hdown (by omega) hi hz
  · exact ⟨r, x, by omega, hhi, by rw [hget, if_pos rfl, hx], hxpivot⟩
  · refine ⟨l, y, hlo, by omega, ?_, hypivot⟩
    rw [hget, if_neg (by omega), if_pos rfl, hy]

/-- The scans have crossed: what they passed is on its side. -/
theorem Partitioning.cross (h : Partitioning values pivot lo hi data left right)
    (hup : ScansUp data pivot left l) (hdown : ScansDown data pivot right r) (hcross : ¬ l ≤ r) :
    Partitioning values pivot lo hi data l r := by
  exact ⟨h.toSection, h.lo_le.trans hup.start_le, hdown.le_start.trans h.le_hi,
    fun i x hi hil hx => h.le_of_scansUp hup hi hil hx,
    fun i x hir hi hx => h.ge_of_scansDown hdown hir hi hx, fun hle => absurd hle hcross,
    fun hle => absurd hle hcross⟩

/-- **The partition.** It comes to an end without an access outside the values, with the ends
crossed. -/
theorem Partitioning.partitionLoop (h : Partitioning values pivot lo hi data left right) :
    ∃ data' l r, Quickselect.partitionLoop pivot data left right = some (data', l, r) ∧ r < l ∧
      Partitioning values pivot lo hi data' l r := by
  induction data, left, right using partitionLoop.induct pivot with
  | case1 data left right hle l r hup hdown hmeet ih =>
    rw [partitionLoop_of_scans hle hup hdown, if_pos hmeet]
    exact ih (h.swap (scanUp_eq_some hup) (scanDown_eq_some hdown) hmeet)
  | case2 data left right hle l r hup hdown hcross ih =>
    rw [partitionLoop_of_scans hle hup hdown, if_neg hcross]
    exact ih (h.cross (scanUp_eq_some hup) (scanDown_eq_some hdown) hcross)
  | case3 data left right hle hscan =>
    obtain ⟨i, x, hi, -, hx, hxpivot⟩ := h.stops_up hle
    obtain ⟨j, y, -, hj, hy, hypivot⟩ := h.stops_down hle
    obtain ⟨l, hup⟩ := exists_scanUp (h.lo_nonneg.trans h.lo_le) hi hx hxpivot
    obtain ⟨r, hdown⟩ := exists_scanDown (h.le_hi.trans_lt h.hi_lt) hj hy hypivot
    exact absurd hdown (hscan l r hup)
  | case4 data left right hle =>
    rw [Quickselect.partitionLoop, if_neg hle]
    exact ⟨data, left, right, rfl, not_le.mp hle, h⟩

end Partition

/-! ## The selection -/

section Selection

variable {values : List α} {pivot : α} {data data' : Array α} {k lo hi left right : ℤ}

/-- A value between two cuts has its place among the sorted values. -/
theorem getElem?_mergeSort_of_cut {x : α} (hperm : data.toList.Perm values)
    (hbefore : Cut data k) (hbehind : Cut data (k + 1)) (hx : get? data k = some x) :
    (values.mergeSort fun a b => a ≤ b)[k.toNat]? = some x := by
  obtain ⟨hk, hlt⟩ := lt_size_of_get? hx
  have hget : data.toList[k.toNat]? = some x := by
    rw [get?, if_pos hk] at hx
    rwa [Array.getElem?_toList]
  have hsplit : data.toList = data.toList.take k.toNat ++ x :: data.toList.drop (k.toNat + 1) := by
    obtain ⟨hlt', rfl⟩ := List.getElem?_eq_some_iff.mp hget
    rw [← List.drop_eq_getElem_cons hlt', List.take_append_drop]
  have hlength : (data.toList.take k.toNat).length = k.toNat := by
    rw [List.length_take, Array.length_toList]
    omega
  have hat {i : ℕ} {y : α} (hy : data.toList[i]? = some y) : get? data i = some y := by
    rw [get?, if_pos (Int.natCast_nonneg i), Int.toNat_natCast, ← Array.getElem?_toList, hy]
  have hrank := Ranks.getElem?_mergeSort_of_perm (x := x) (hsplit ▸ hperm)
    (fun a ha => ?_) (fun b hb => ?_)
  · rwa [hlength] at hrank
  · obtain ⟨i, hi⟩ := List.mem_iff_getElem?.mp ha
    rw [List.getElem?_take] at hi
    split at hi
    · exact hbefore i k a x (by omega) (le_refl k) (hat hi) hx
    · exact nomatch hi
  · obtain ⟨i, hi⟩ := List.mem_iff_getElem?.mp hb
    rw [List.getElem?_drop] at hi
    exact hbehind k (k.toNat + 1 + i : ℕ) x b (by omega) (by omega) hx (hat hi)

theorem exists_medianOfThree (h : Section values lo hi data) (hle : lo ≤ hi) :
    ∃ pivot, medianOfThree data lo hi = some pivot := by
  have hlo := h.lo_nonneg
  have hhi := h.hi_lt
  obtain ⟨first, hfirst⟩ := exists_get? hlo (hle.trans_lt hhi)
  obtain ⟨middle, hmiddle⟩ : ∃ x, get? data ((lo + hi) / 2) = some x :=
    exists_get? (by omega) (by omega)
  obtain ⟨last, hlast⟩ := exists_get? (hlo.trans hle) hhi
  rw [medianOfThree, hfirst, hmiddle, hlast]
  have hlength : 1 < ([first, middle, last].mergeSort fun a b => a ≤ b).length := by
    rw [List.length_mergeSort]
    exact Nat.lt_of_sub_eq_succ rfl
  exact ⟨_, List.getElem?_eq_getElem hlength⟩

/-- One round of the selection. -/
theorem selectionLoop_of_partition (hlt : lo < hi) (hpivot : medianOfThree data lo hi = some pivot)
    (hpart : partitionLoop pivot data lo hi = some (data', left, right)) :
    selectionLoop k data lo hi =
      if k ≤ right then selectionLoop k data' lo right
      else if k ≥ left then selectionLoop k data' left hi
      else get? data' k := by
  rw [selectionLoop, dif_pos hlt]
  split
  · next hnone => exact nomatch hnone.symm.trans hpivot
  · next pivot' hpivot' =>
    obtain rfl : pivot = pivot' := Option.some.inj (hpivot.symm.trans hpivot')
    split
    · next hnone => exact nomatch hnone.symm.trans hpart
    · next data'' left' right' hpart' =>
      cases Option.some.inj (hpart.symm.trans hpart')
      rfl

/-- When the ends have crossed, there is a cut behind the right end, at the left end, and anywhere
between. -/
theorem Partitioning.cut {c : ℤ} (h : Partitioning values pivot lo hi data left right)
    (hlo : lo ≤ c) (hhi : c ≤ hi + 1) (hleft : c ≤ left) (hright : right < c) : Cut data c := by
  intro i j x y hi' hj hx hy
  rcases lt_or_ge i lo with hbefore | hbefore
  · exact h.cut_lo i j x y hbefore (hlo.trans hj) hx hy
  · rcases lt_or_ge hi j with hbehind | hbehind
    · exact h.cut_hi i j x y (hi'.trans_le hhi) hbehind hx hy
    · exact (h.below i x hbefore (hi'.trans_le hleft) hx).trans
        (h.above j y (hright.trans_le hj) hbehind hy)

/-- **The selection.** The loop comes to an end without an access outside the values, with the value
of rank `k`. -/
theorem Section.selectionLoop (h : Section values lo hi data) (hlo : lo ≤ k) (hhi : k ≤ hi) :
    Quickselect.selectionLoop k data lo hi = (values.mergeSort fun a b => a ≤ b)[k.toNat]? := by
  induction hsize : (hi - lo).toNat using Nat.strong_induction_on generalizing data lo hi with
  | h size ih =>
    subst hsize
    rcases hlo.trans hhi |>.eq_or_lt with rfl | hlt
    · -- one value is left
      obtain rfl : k = lo := le_antisymm hhi hlo
      obtain ⟨x, hx⟩ := exists_get? h.lo_nonneg h.hi_lt
      rw [Quickselect.selectionLoop, dif_neg (lt_irrefl k), hx]
      exact (getElem?_mergeSort_of_cut h.perm h.cut_lo h.cut_hi hx).symm
    · obtain ⟨pivot, hpivot⟩ := exists_medianOfThree h hlt.le
      obtain ⟨i, hilo, hihi, hi'⟩ := exists_of_medianOfThree hlt.le hpivot
      have hstart : Partitioning values pivot lo hi data lo hi :=
        ⟨h, le_refl lo, le_refl hi, fun i x hi hlt => absurd hi (not_le.mpr hlt),
          fun i x hlt hi => absurd hi (not_le.mpr hlt),
          fun _ => ⟨i, pivot, hilo, hihi, hi', le_refl pivot⟩,
          fun _ => ⟨i, pivot, hilo, hihi, hi', le_refl pivot⟩⟩
      obtain ⟨data', left, right, hpart, hcross, hend⟩ := hstart.partitionLoop
      obtain ⟨hleft, hright⟩ := partitionLoop_progress hlt.le hpivot hpart
      have hlo_nonneg := hend.lo_nonneg
      have hhi_lt := hend.hi_lt
      rw [selectionLoop_of_partition hlt hpivot hpart]
      split_ifs with hkright hkleft
      · have hcut : Cut data' (right + 1) :=
          hend.cut (by omega) (by omega) (by omega) (by omega)
        exact ih _ (by omega) ⟨hend.lo_nonneg, by omega, hend.cut_lo, hcut, hend.perm⟩ hlo hkright
          rfl
      · have hcut : Cut data' left := hend.cut hend.lo_le (by omega) (le_refl left) hcross
        exact ih _ (by omega) ⟨by omega, hend.hi_lt, hcut, hend.cut_hi, hend.perm⟩ hkleft hhi rfl
      · -- between the sides, all values are the pivot
        obtain ⟨x, hx⟩ := exists_get? (hlo_nonneg.trans hlo) (hhi.trans_lt hhi_lt)
        rw [hx]
        exact (getElem?_mergeSort_of_cut hend.perm
          (hend.cut hlo (by omega) (by omega) (by omega))
          (hend.cut (by omega) (by omega) (by omega) (by omega)) hx).symm

end Selection

/-- **Quickselect agrees with sorting.** For every rank of the values, duplicates among them or not,
the selection returns the value that has this rank when they are sorted, without an access outside
the values. -/
theorem kthSmallest_eq (values : List α) (k : ℤ) (hk : 0 ≤ k) (hlt : k < values.length) :
    ∃ x, kthSmallest values k = .ok (some x) ∧
      (values.mergeSort fun a b => a ≤ b)[k.toNat]? = some x := by
  have hsection : Section values 0 (values.length - 1) values.toArray := by
    refine ⟨le_refl 0, ?_, fun i j x y hi _ hx _ => ?_, fun i j x y _ hj _ hy => ?_,
      List.Perm.refl _⟩
    · rw [List.size_toArray]
      omega
    · exact absurd (lt_size_of_get? hx).1 (not_le.mpr hi)
    · have := (lt_size_of_get? hy).2
      rw [List.size_toArray] at this
      omega
  have hlength : k.toNat < (values.mergeSort fun a b => a ≤ b).length := by
    rw [List.length_mergeSort]
    omega
  refine ⟨_, ?_, List.getElem?_eq_getElem hlength⟩
  rw [kthSmallest, if_neg (by rintro rfl; simp at hlt; omega), if_pos ⟨hk, hlt⟩,
    hsection.selectionLoop hk (by omega), List.getElem?_eq_getElem hlength]

/-- Five values, three of them equal. -/
theorem kthSmallest_eq_duplicates :
    ∃ x : ℤ, kthSmallest [3, 1, 3, 2, 3] 2 = .ok (some x) ∧
      ([3, 1, 3, 2, 3].mergeSort fun a b => a ≤ b)[(2 : ℤ).toNat]? = some x :=
  kthSmallest_eq [3, 1, 3, 2, 3] 2 (by decide) (by decide)

end Quickselect

end Relay
