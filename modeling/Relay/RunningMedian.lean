import Mathlib.Algebra.Order.Ring.Int
import Mathlib.Data.List.Sort
import Relay.Floats
import Relay.Lib.BinaryHeap
import Relay.Lib.Ranks

/-!
# The running median

The tracker keeps the lower half of the values it has been given in a heap of their negations, so
that the greatest of them is at its root, and the upper half in a heap as they are. A value goes to
the lower half if it is no greater than the greatest of that half, or if there is none, and to the
upper half otherwise; then one value is moved across if a half has grown too large. The median is
the root of the lower half if that has one value more, and else half the sum of the two roots.

The heaps are those of `heapq`, which is not part of the repository. What is relied on is in the
fields of `Heapq`: pushing and popping keep a heap in order, and a pop takes a least element away.

The median is returned as a float, although the values are integers of any size. It is the float
nearest to the median, and it is the median itself when that is a float. A median that is beyond the
floats is not returned; the interpreter raises an `OverflowError` of its own.

## Scope

The text on the sizes of the two halves is left out. The heap of the standard library is a
parameter.

## Main definitions

* `RunningMedian`, with `add`, `rebalance` and `median`
* `exactMedian`: the median of a list of integers, from the sorted list

## Main results

* `runningMedian_halves`: the halves after any values
* `runningMedian_median`: the median that is returned
-/

namespace Relay

/-- What is relied on of `heapq`. -/
structure Heapq where
  heappush : Array ℤ → ℤ → Array ℤ
  heappop : (heap : Array ℤ) → 0 < heap.size → ℤ × Array ℤ
  ordered_heappush : ∀ {heap} x, BinaryHeap.Ordered heap → BinaryHeap.Ordered (heappush heap x)
  heappush_perm : ∀ {heap} x, BinaryHeap.Ordered heap →
    (heappush heap x).toList.Perm (x :: heap.toList)
  ordered_heappop : ∀ {heap} h, BinaryHeap.Ordered heap → BinaryHeap.Ordered (heappop heap h).2
  heappop_perm : ∀ {heap} h, BinaryHeap.Ordered heap →
    ((heappop heap h).1 :: (heappop heap h).2.toList).Perm heap.toList
  heappop_le : ∀ {heap} h, BinaryHeap.Ordered heap → ∀ x ∈ heap.toList, (heappop heap h).1 ≤ x

/-- The tracker. The lower half is stored negated. -/
structure RunningMedian where
  lower : Array ℤ := #[]
  upper : Array ℤ := #[]

/-- The heaps of this development are such heaps. -/
def binaryHeapq : Heapq where
  heappush := BinaryHeap.push
  heappop heap h := (heap[0], BinaryHeap.pop heap h)
  ordered_heappush x h := h.push x
  heappush_perm {heap} x _ := by
    have hpush := Array.perm_iff_toList_perm.mp (BinaryHeap.push_perm heap x)
    rw [Array.toList_push] at hpush
    exact hpush.trans (List.perm_append_singleton x heap.toList)
  ordered_heappop hne h := h.pop hne
  heappop_perm {heap} hne _ := BinaryHeap.pop_perm heap hne
  heappop_le {heap} hne h x hx := by
    obtain ⟨i, hi, rfl⟩ := List.getElem_of_mem hx
    exact h.root_le hi

namespace RunningMedian

section Heapq

variable (heapq : Heapq)

/-- `_rebalance`. -/
def rebalance (tracker : RunningMedian) : RunningMedian :=
  if h : tracker.lower.size > tracker.upper.size + 1 then
    let popped := heapq.heappop tracker.lower (Nat.zero_lt_of_lt h)
    { lower := popped.2, upper := heapq.heappush tracker.upper (-popped.1) }
  else if h : tracker.upper.size > tracker.lower.size then
    let popped := heapq.heappop tracker.upper (Nat.zero_lt_of_lt h)
    { lower := heapq.heappush tracker.lower (-popped.1), upper := popped.2 }
  else
    tracker

/-- `add`. -/
def add (tracker : RunningMedian) (value : ℤ) : RunningMedian :=
  if tracker.lower[0]?.all fun top => value ≤ -top then
    rebalance heapq { tracker with lower := heapq.heappush tracker.lower (-value) }
  else
    rebalance heapq { tracker with upper := heapq.heappush tracker.upper value }

end Heapq

/-- `median`. Both an integer and the quotient of two are rounded once. -/
def median (tracker : RunningMedian) : Except FloatError ℚ :=
  if hlower : 0 < tracker.lower.size then
    if hmore : tracker.lower.size > tracker.upper.size then
      toFloat ((-tracker.lower[0] : ℤ) : ℚ)
    else
      have hupper : 0 < tracker.upper.size := hlower.trans_le (not_lt.mp hmore)
      toFloat (((-tracker.lower[0] + tracker.upper[0] : ℤ) : ℚ) / 2)
  else
    .error (.refused (.invalid "no values yet; the median is undefined"))

end RunningMedian

/-- The tracker after these values. -/
def runningMedian (heapq : Heapq) (values : List ℤ) : RunningMedian :=
  values.foldl (fun tracker value => tracker.add heapq value) {}

/-- The median of integers: the middle one in order, or half the sum of the two in the middle. -/
def exactMedian (values : List ℤ) : ℚ :=
  let sorted := values.mergeSort fun a b => a ≤ b
  if values.length % 2 = 1 then
    (sorted.getD (values.length / 2) 0 : ℚ)
  else
    (sorted.getD (values.length / 2 - 1) 0 + sorted.getD (values.length / 2) 0 : ℚ) / 2

/-! ## The halves -/

/-- The values of the lower half. -/
def RunningMedian.lowerValues (tracker : RunningMedian) : List ℤ :=
  tracker.lower.toList.map fun x => -x

/-- Both halves are heaps, they have these values between them, and no value of the lower half is
greater than one of the upper half. -/
structure Split (values : List ℤ) (tracker : RunningMedian) : Prop where
  ordered_lower : BinaryHeap.Ordered tracker.lower
  ordered_upper : BinaryHeap.Ordered tracker.upper
  holds : (tracker.lowerValues ++ tracker.upper.toList).Perm values
  apart : ∀ a ∈ tracker.lowerValues, ∀ b ∈ tracker.upper.toList, a ≤ b

/-- The halves are split, and the lower half has as many values as the upper half, or one more. -/
structure Halves (values : List ℤ) (tracker : RunningMedian) : Prop
    extends Split values tracker where
  upper_le : tracker.upper.size ≤ tracker.lower.size
  lower_le : tracker.lower.size ≤ tracker.upper.size + 1

section Steps

variable {heapq : Heapq} {values : List ℤ} {tracker : RunningMedian} {value : ℤ}

/-- The greatest value of the lower half is at the root of its heap. -/
theorem le_neg_root {heap : Array ℤ} (h : BinaryHeap.Ordered heap) (hne : 0 < heap.size) :
    ∀ a ∈ heap.toList.map (fun x => -x), a ≤ -heap[0] := by
  intro a ha
  obtain ⟨x, hx, rfl⟩ := List.mem_map.mp ha
  obtain ⟨i, hi, rfl⟩ := List.getElem_of_mem hx
  exact neg_le_neg (h.root_le hi)

theorem root_le_of_mem {heap : Array ℤ} (h : BinaryHeap.Ordered heap) (hne : 0 < heap.size) :
    ∀ b ∈ heap.toList, heap[0] ≤ b := by
  intro b hb
  obtain ⟨i, hi, rfl⟩ := List.getElem_of_mem hb
  exact h.root_le hi

theorem Split.push_lower (h : Split values tracker)
    (hvalue : ∀ b ∈ tracker.upper.toList, value ≤ b) :
    Split (value :: values)
      { tracker with lower := heapq.heappush tracker.lower (-value) } := by
  have hlower : ((heapq.heappush tracker.lower (-value)).toList.map fun x => -x).Perm
      (value :: tracker.lowerValues) := by
    have hpush := (heapq.heappush_perm (-value) h.ordered_lower).map fun x => -x
    rwa [List.map_cons, neg_neg] at hpush
  refine ⟨heapq.ordered_heappush _ h.ordered_lower, h.ordered_upper, ?_, fun a ha b hb => ?_⟩
  · exact (hlower.append_right _).trans (h.holds.cons value)
  · rcases List.mem_cons.mp (hlower.subset ha) with rfl | ha
    · exact hvalue b hb
    · exact h.apart a ha b hb

theorem Split.push_upper (h : Split values tracker)
    (hvalue : ∀ a ∈ tracker.lowerValues, a ≤ value) :
    Split (value :: values)
      { tracker with upper := heapq.heappush tracker.upper value } := by
  have hupper := heapq.heappush_perm value h.ordered_upper
  refine ⟨h.ordered_lower, heapq.ordered_heappush _ h.ordered_upper, ?_, fun a ha b hb => ?_⟩
  · exact (hupper.append_left _).trans (List.perm_middle.trans (h.holds.cons value))
  · rcases List.mem_cons.mp (hupper.subset hb) with rfl | hb
    · exact hvalue a ha
    · exact h.apart a ha b hb

variable (heapq) in
/-- Without its greatest value, the lower half is what is split off from it. -/
theorem Split.pop_lower (h : Split values tracker) (hne : 0 < tracker.lower.size) :
    ∃ rest, values.Perm (-(heapq.heappop tracker.lower hne).1 :: rest) ∧
      Split rest { tracker with lower := (heapq.heappop tracker.lower hne).2 } ∧
      ∀ a ∈ ((heapq.heappop tracker.lower hne).2.toList.map fun x => -x),
        a ≤ -(heapq.heappop tracker.lower hne).1 := by
  have hpop := (heapq.heappop_perm hne h.ordered_lower).map fun x => -x
  rw [List.map_cons] at hpop
  refine ⟨_, h.holds.symm.trans (hpop.symm.append_right _), ⟨heapq.ordered_heappop hne
    h.ordered_lower, h.ordered_upper, List.Perm.refl _, fun a ha b hb => ?_⟩, fun a ha => ?_⟩
  · exact h.apart a (hpop.subset (List.mem_cons_of_mem _ ha)) b hb
  · obtain ⟨x, hx, rfl⟩ := List.mem_map.mp ha
    refine neg_le_neg (heapq.heappop_le hne h.ordered_lower x ?_)
    exact (heapq.heappop_perm hne h.ordered_lower).subset (List.mem_cons_of_mem _ hx)

variable (heapq) in
/-- Without its least value, the upper half is what is split off from it. -/
theorem Split.pop_upper (h : Split values tracker) (hne : 0 < tracker.upper.size) :
    ∃ rest, values.Perm ((heapq.heappop tracker.upper hne).1 :: rest) ∧
      Split rest { tracker with upper := (heapq.heappop tracker.upper hne).2 } ∧
      ∀ b ∈ (heapq.heappop tracker.upper hne).2.toList,
        (heapq.heappop tracker.upper hne).1 ≤ b := by
  have hpop := heapq.heappop_perm hne h.ordered_upper
  refine ⟨_, ?_, ⟨h.ordered_lower, heapq.ordered_heappop hne h.ordered_upper, List.Perm.refl _,
    fun a ha b hb => ?_⟩, fun b hb => ?_⟩
  · exact h.holds.symm.trans ((hpop.symm.append_left _).trans List.perm_middle)
  · exact h.apart a ha b (hpop.subset (List.mem_cons_of_mem _ hb))
  · exact heapq.heappop_le hne h.ordered_upper b (hpop.subset (List.mem_cons_of_mem _ hb))

theorem size_heappush {heap : Array ℤ} (h : BinaryHeap.Ordered heap) (x : ℤ) :
    (heapq.heappush heap x).size = heap.size + 1 :=
  (heapq.heappush_perm x h).length_eq

theorem size_heappop {heap : Array ℤ} (h : BinaryHeap.Ordered heap) (hne : 0 < heap.size) :
    (heapq.heappop heap hne).2.size + 1 = heap.size :=
  (heapq.heappop_perm hne h).length_eq

theorem Split.perm {values' : List ℤ} (h : Split values tracker) (hperm : values.Perm values') :
    Split values' tracker :=
  { h with holds := h.holds.trans hperm }

/-- Moving one value across is enough when one half has grown by one value. -/
theorem Split.rebalance (h : Split values tracker)
    (hupper : tracker.upper.size ≤ tracker.lower.size + 1)
    (hlower : tracker.lower.size ≤ tracker.upper.size + 2) :
    Halves values (tracker.rebalance heapq) := by
  rw [RunningMedian.rebalance]
  split
  · next hmore =>
    obtain ⟨rest, hvalues, hrest, htop⟩ := h.pop_lower heapq (Nat.zero_lt_of_lt hmore)
    have hpush : (heapq.heappush tracker.upper
        (-(heapq.heappop tracker.lower (Nat.zero_lt_of_lt hmore)).1)).size =
          tracker.upper.size + 1 := size_heappush h.ordered_upper _
    have hpop : (heapq.heappop tracker.lower (Nat.zero_lt_of_lt hmore)).2.size + 1 =
      tracker.lower.size := size_heappop h.ordered_lower _
    refine ⟨(hrest.push_upper htop).perm hvalues.symm, hpush.trans_le ?_, ?_⟩
    · exact Nat.le_of_succ_le_succ ((Nat.succ_le_of_lt hmore).trans_eq hpop.symm)
    · refine le_of_le_of_eq ?_ (congrArg (· + 1) hpush.symm)
      exact Nat.le_of_succ_le_succ (hpop.trans_le (Nat.le_succ_of_le hlower))
  · split
    · next hmore =>
      obtain ⟨rest, hvalues, hrest, htop⟩ := h.pop_upper heapq (Nat.zero_lt_of_lt hmore)
      have hpush : (heapq.heappush tracker.lower
          (-(heapq.heappop tracker.upper (Nat.zero_lt_of_lt hmore)).1)).size =
            tracker.lower.size + 1 := size_heappush h.ordered_lower _
      have hpop : (heapq.heappop tracker.upper (Nat.zero_lt_of_lt hmore)).2.size + 1 =
        tracker.upper.size := size_heappop h.ordered_upper _
      refine ⟨(hrest.push_lower htop).perm hvalues.symm, le_of_le_of_eq ?_ hpush.symm,
        hpush.trans_le ?_⟩
      · exact Nat.le_of_succ_le_succ (hpop.trans_le (Nat.le_succ_of_le hupper))
      · exact Nat.succ_le_succ
          (Nat.le_of_succ_le_succ ((Nat.succ_le_of_lt hmore).trans_eq hpop.symm))
    · exact ⟨h, by omega, by omega⟩

variable (heapq) in
/-- One more value. The value is compared with the greatest of the lower half only: no greater than
that, it is no greater than any of the upper half, and otherwise it is greater than all of the lower
half. -/
theorem Halves.add (h : Halves values tracker) (value : ℤ) :
    Halves (value :: values) (tracker.add heapq value) := by
  have hupper := h.upper_le
  have hlower := h.lower_le
  rw [RunningMedian.add]
  split
  · next hplace =>
    have hle : ∀ b ∈ tracker.upper.toList, value ≤ b := by
      intro b hb
      have hne : 0 < tracker.lower.size := (List.length_pos_of_mem hb).trans_le h.upper_le
      rw [Array.getElem?_eq_getElem hne, Option.all_some] at hplace
      refine (of_decide_eq_true hplace).trans (h.apart _ ?_ b hb)
      exact List.mem_map_of_mem (Array.getElem_mem_toList hne)
    refine (h.push_lower hle).rebalance ?_ ?_
    all_goals
      simp only [size_heappush h.ordered_lower]
      omega
  · next hplace =>
    have hle : ∀ a ∈ tracker.lowerValues, a ≤ value := by
      intro a ha
      have hne : 0 < tracker.lower.size := by
        have := List.length_pos_of_mem ha
        rwa [RunningMedian.lowerValues, List.length_map] at this
      rw [Array.getElem?_eq_getElem hne, Option.all_some, decide_eq_true_eq, not_le] at hplace
      exact (le_neg_root h.ordered_lower hne a ha).trans hplace.le
    refine (h.push_upper hle).rebalance ?_ ?_
    all_goals
      simp only [size_heappush h.ordered_upper]
      omega

/-- **The halves.** After any values, the heaps are in order, no value of the lower half is greater
than one of the upper half, and the lower half has as many values as the upper half or one more. -/
theorem runningMedian_halves (heapq : Heapq) (values : List ℤ) :
    Halves values (runningMedian heapq values) := by
  rw [runningMedian]
  induction values using List.reverseRecOn with
  | nil =>
    have hempty : BinaryHeap.Ordered (#[] : Array ℤ) := fun i _ hi => absurd hi (Nat.not_lt_zero i)
    exact ⟨⟨hempty, hempty, List.Perm.refl [], by simp [RunningMedian.lowerValues]⟩, Nat.le_refl 0,
      Nat.zero_le 1⟩
  | append_singleton values value ih =>
    rw [List.foldl_append, List.foldl_cons, List.foldl_nil]
    have hnext := ih.add heapq value
    exact { hnext with holds := hnext.holds.trans (List.perm_append_singleton value values).symm }

end Steps

/-! ## The median -/

section Median

variable {values : List ℤ} {tracker : RunningMedian}

theorem Halves.length_eq (h : Halves values tracker) :
    values.length = tracker.lower.size + tracker.upper.size := by
  rw [← h.holds.length_eq, List.length_append, RunningMedian.lowerValues, List.length_map]
  rfl

/-- The greatest value of the lower half is the last of them in order. -/
theorem Halves.getElem?_lower (h : Halves values tracker) (hne : 0 < tracker.lower.size) :
    (values.mergeSort fun a b => a ≤ b)[tracker.lower.size - 1]? = some (-tracker.lower[0]) := by
  have hmem : -tracker.lower[0] ∈ tracker.lowerValues :=
    List.mem_map_of_mem (Array.getElem_mem_toList hne)
  have hperm := List.perm_cons_erase hmem
  have hlength :
      (tracker.lowerValues.erase (-tracker.lower[0])).length = tracker.lower.size - 1 := by
    rw [List.length_erase_of_mem hmem, RunningMedian.lowerValues, List.length_map]
    rfl
  rw [← hlength]
  refine Ranks.getElem?_mergeSort_of_perm
    (List.perm_middle.trans ((hperm.symm.append_right _).trans h.holds)) (fun a ha => ?_)
    (fun b hb => h.apart _ hmem b hb)
  exact le_neg_root h.ordered_lower hne a (List.mem_of_mem_erase ha)

/-- The least value of the upper half comes next after the lower half. -/
theorem Halves.getElem?_upper (h : Halves values tracker) (hne : 0 < tracker.upper.size) :
    (values.mergeSort fun a b => a ≤ b)[tracker.lower.size]? = some tracker.upper[0] := by
  have hmem : tracker.upper[0] ∈ tracker.upper.toList := Array.getElem_mem_toList hne
  have hperm := List.perm_cons_erase hmem
  have hlength : tracker.lowerValues.length = tracker.lower.size := by
    rw [RunningMedian.lowerValues, List.length_map]
    rfl
  rw [← hlength]
  refine Ranks.getElem?_mergeSort_of_perm ((hperm.symm.append_left _).trans h.holds)
    (fun a ha => h.apart a ha _ hmem) (fun b hb => ?_)
  exact root_le_of_mem h.ordered_upper hne b (List.mem_of_mem_erase hb)

/-- The median that is returned is the float nearest to the median. -/
theorem Halves.median_eq (h : Halves values tracker) (hne : values ≠ []) :
    tracker.median = toFloat (exactMedian values) := by
  have hlength := h.length_eq
  have hupper := h.upper_le
  have hlower := h.lower_le
  have hpos : 0 < tracker.lower.size := by
    have := List.length_pos_iff.mpr hne
    omega
  have hlast := h.getElem?_lower hpos
  rw [RunningMedian.median, dif_pos hpos, exactMedian]
  split
  · next hmore =>
    have hodd : values.length % 2 = 1 := by omega
    have hmiddle : values.length / 2 = tracker.lower.size - 1 := by omega
    rw [if_pos hodd, hmiddle, List.getD_eq_getElem?_getD, hlast, Option.getD_some]
  · next hmore =>
    have heven : ¬ values.length % 2 = 1 := by omega
    have hmiddle : values.length / 2 = tracker.lower.size := by omega
    have hfirst := h.getElem?_upper (hpos.trans_le (not_lt.mp hmore))
    rw [if_neg heven, hmiddle, List.getD_eq_getElem?_getD, List.getD_eq_getElem?_getD, hlast,
      hfirst, Option.getD_some, Option.getD_some, ← Int.cast_add]

/-- The median of integers whose magnitude is at most `2 ^ 52` is a float. -/
theorem isFloat_exactMedian (hvalues : ∀ v ∈ values, |v| ≤ 2 ^ 52) :
    IsFloat (exactMedian values) := by
  have hsorted (k : ℕ) : |(values.mergeSort fun a b => a ≤ b).getD k 0| ≤ 2 ^ 52 := by
    rw [List.getD_eq_getElem?_getD]
    cases hk : (values.mergeSort fun a b => a ≤ b)[k]? with
    | none => exact abs_zero.trans_le (by positivity)
    | some v => exact hvalues v (List.mem_mergeSort.mp (List.mem_of_getElem? hk))
  obtain ⟨m, hm, heq⟩ : ∃ m : ℤ, |m| ≤ 2 ^ 53 ∧ exactMedian values = (m : ℚ) / 2 := by
    rw [exactMedian]
    split
    · refine ⟨2 * (values.mergeSort fun a b => a ≤ b).getD (values.length / 2) 0, ?_, ?_⟩
      · have := hsorted (values.length / 2)
        rw [abs_mul, abs_two]
        omega
      · push_cast
        ring
    · refine ⟨_, ?_, by rw [Int.cast_add]⟩
      have hbelow := hsorted (values.length / 2 - 1)
      have habove := hsorted (values.length / 2)
      refine (abs_add_le _ _).trans ?_
      omega
  rw [heq]
  refine ⟨Rounding.representable_half (by decide) (by decide) hm, ?_⟩
  have hm' : |(m : ℚ)| ≤ 2 ^ 53 := by exact_mod_cast hm
  rw [abs_div, abs_two]
  refine lt_of_le_of_lt (div_le_self (abs_nonneg _) one_le_two) (hm'.trans_lt ?_)
  exact pow_lt_pow_right₀ one_lt_two (by decide)

/-- **The running median.** After any values, at least one, the halves are split and balanced, and
the median that is returned is a float, and no float is nearer to the median of the values. It is
the median itself if that is a float, and it is one when no value exceeds `2 ^ 52` in magnitude. -/
theorem runningMedian_median (heapq : Heapq) (values : List ℤ) (hne : values ≠ []) :
    Halves values (runningMedian heapq values) ∧
      (runningMedian heapq values).median = toFloat (exactMedian values) ∧
      (∀ x, (runningMedian heapq values).median = .ok x →
        IsFloat x ∧ ∀ y, IsFloat y → |x - exactMedian values| ≤ |y - exactMedian values|) ∧
      (IsFloat (exactMedian values) →
        (runningMedian heapq values).median = .ok (exactMedian values)) ∧
      ((∀ v ∈ values, |v| ≤ 2 ^ 52) → IsFloat (exactMedian values)) := by
  have hhalves := runningMedian_halves heapq values
  have hmedian := hhalves.median_eq hne
  refine ⟨hhalves, hmedian, fun x hx => isFloat_of_toFloat (hmedian.symm.trans hx),
    fun hfloat => ?_, isFloat_exactMedian⟩
  rw [hmedian, hfloat.toFloat_eq]

/-- Two values with a third between them. -/
theorem runningMedian_median_three :
    (runningMedian binaryHeapq [5, 1, 3]).median = .ok (exactMedian [5, 1, 3]) := by
  obtain ⟨-, -, -, hexact, hfloat⟩ := runningMedian_median binaryHeapq [5, 1, 3] (by decide)
  exact hexact (hfloat (by decide))

/-- A value that no float has: it is returned as the nearest float. -/
theorem runningMedian_median_ne :
    (runningMedian binaryHeapq [2 ^ 53 + 1]).median = .ok (2 ^ 53) ∧
      (runningMedian binaryHeapq [2 ^ 53 + 1]).median ≠ .ok (exactMedian [2 ^ 53 + 1]) := by
  have hexact : exactMedian [2 ^ 53 + 1] = 2 ^ 53 + 1 := by
    rw [exactMedian, List.length_singleton, if_pos (by decide), List.mergeSort_singleton]
    norm_num
  have hround : Rounding.rounded 53 (-1074) (2 ^ 53 + 1) = 2 ^ 53 := by decide +kernel
  have hmedian : (runningMedian binaryHeapq [2 ^ 53 + 1]).median = .ok (2 ^ 53) := by
    rw [(runningMedian_halves binaryHeapq [2 ^ 53 + 1]).median_eq (by decide), hexact, toFloat,
      hround, if_pos (by decide +kernel)]
  refine ⟨hmedian, fun h => ?_⟩
  rw [hmedian, hexact] at h
  exact absurd (Except.ok.inj h) (by norm_num)

end Median

end Relay
