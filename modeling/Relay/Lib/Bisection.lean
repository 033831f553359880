import Mathlib.Algebra.Order.Ring.Int
import Mathlib.Data.List.TakeDrop

/-!
# Searches by halving

A list in order is cut by a bound in two: what is below it, and the rest. Programs look for the cut
by halving, in one of two forms. One keeps a half-open window and ends at the index of the cut
(`bisect`). The other keeps a closed window together with the best element seen so far, and ends
with the last element below the cut (`floorSearch`).

Neither form needs the order itself. All that the loops use is that the list is cut somewhere
(`Cut`), and what they return is then read off from the two parts.

## Main definitions

* `Cut`: a list in two parts, one that meets a condition and one that does not
* `bisect`, `floorSearch`: the two searches

## Main results

* `exists_cut`: a list is cut by any condition that is passed on to earlier elements
* `Cut.unique`: there is only one cut
* `bisect_eq`, `floorSearch_eq`: what the searches find
-/

namespace Relay

variable {α β : Type*} {p : α → Prop} {l l₁ l₂ : List α}

/-- `l` is `l₁`, which meets the condition, followed by `l₂`, which does not. -/
structure Cut (p : α → Prop) (l l₁ l₂ : List α) : Prop where
  append : l₁ ++ l₂ = l
  below : ∀ a ∈ l₁, p a
  above : ∀ a ∈ l₂, ¬ p a

/-- A condition that an element passes on to those before it cuts the list. -/
theorem exists_cut (h : l.Pairwise fun a b => p b → p a) : ∃ l₁ l₂, Cut p l l₁ l₂ := by
  induction l with
  | nil => exact ⟨[], [], rfl, by simp, by simp⟩
  | cons a l ih =>
    obtain ⟨hhead, htail⟩ := List.pairwise_cons.mp h
    by_cases ha : p a
    · obtain ⟨l₁, l₂, hcut⟩ := ih htail
      exact ⟨a :: l₁, l₂, congrArg (a :: ·) hcut.append, List.forall_mem_cons.mpr ⟨ha, hcut.below⟩,
        hcut.above⟩
    · exact ⟨[], a :: l, rfl, by simp,
        List.forall_mem_cons.mpr ⟨ha, fun b hb hpb => ha (hhead b hb hpb)⟩⟩

namespace Cut

theorem filter_eq [DecidablePred p] (h : Cut p l l₁ l₂) : l.filter (p ·) = l₁ := by
  have hbelow : l₁.filter (p ·) = l₁ :=
    List.filter_eq_self.mpr fun a ha => decide_eq_true (h.below a ha)
  have habove : l₂.filter (p ·) = [] :=
    List.filter_eq_nil_iff.mpr fun a ha hpa => h.above a ha (of_decide_eq_true hpa)
  rw [← h.append, List.filter_append, hbelow, habove, List.append_nil]

/-- A list is cut in only one place. -/
theorem unique {l₁' l₂' : List α} (h : Cut p l l₁ l₂) (h' : Cut p l l₁' l₂') :
    l₁ = l₁' ∧ l₂ = l₂' := by
  classical
  have hbelow : l₁ = l₁' := h.filter_eq.symm.trans h'.filter_eq
  exact ⟨hbelow, List.append_cancel_left ((hbelow ▸ h.append).trans h'.append.symm)⟩

/-- What a look at an index finds, if it meets the condition, stands there before the cut. -/
theorem filter_getElem? [DecidablePred p] (h : Cut p l l₁ l₂) (i : ℕ) :
    l[i]?.filter (p ·) = l₁[i]? := by
  rw [← h.append]
  by_cases hlt : i < l₁.length
  · rw [List.getElem?_append_left hlt, List.getElem?_eq_getElem hlt]
    exact Option.filter_some_pos (decide_eq_true (h.below _ (List.getElem_mem hlt)))
  · rw [List.getElem?_append_right (not_lt.mp hlt), List.getElem?_eq_none (not_lt.mp hlt),
      Option.filter_eq_none_iff]
    exact fun a ha hpa => h.above a (List.mem_of_getElem? ha) (of_decide_eq_true hpa)

/-- A condition on images cuts the list of images where it cuts the list. -/
theorem map {q : β → Prop} {f : α → β} (h : Cut (fun a => q (f a)) l l₁ l₂) :
    Cut q (l.map f) (l₁.map f) (l₂.map f) where
  append := by rw [← List.map_append, h.append]
  below := List.forall_mem_map.mpr h.below
  above := List.forall_mem_map.mpr h.above

theorem length_le (h : Cut p l l₁ l₂) : l₁.length ≤ l.length := by
  rw [← h.append, List.length_append]
  exact Nat.le_add_right _ _

theorem mem_left_iff (h : Cut p l l₁ l₂) {a : α} : a ∈ l₁ ↔ a ∈ l ∧ p a := by
  rw [← h.append, List.mem_append]
  constructor
  · exact fun ha => ⟨.inl ha, h.below a ha⟩
  · rintro ⟨ha | ha, hpa⟩
    · exact ha
    · exact absurd hpa (h.above a ha)

end Cut

variable (p) [DecidablePred p]

/-- The halving search for the first element that does not meet the condition, in a window from `lo`
to before `hi`. -/
def bisect (l : List α) (lo hi : ℕ) : ℕ :=
  if lo < hi then
    let mid := (lo + hi) / 2
    match l[mid]?.filter (p ·) with
    | some _ => bisect l (mid + 1) hi
    | none => bisect l lo mid
  else lo
termination_by hi - lo

/-- The halving search for the last element that meets the condition, in a window from `low` to
`high` inclusive; `found` stands for the last one seen. -/
def floorLoop (value : α → β) (l : List α) (low high : ℤ) (found : β) : β :=
  if low ≤ high then
    let mid := (low + high) / 2
    match l[mid.toNat]?.filter (p ·) with
    | some a => floorLoop value l (mid + 1) high (value a)
    | none => floorLoop value l low (mid - 1) found
  else found
termination_by (high + 1 - low).toNat

/-- The search in the whole list. -/
def floorSearch (value : α → β) (l : List α) (found : β) : β :=
  floorLoop p value l 0 (l.length - 1) found

variable {p}

theorem bisect_eq (h : Cut p l l₁ l₂) {lo hi : ℕ} (hlo : lo ≤ l₁.length) (hhi : l₁.length ≤ hi) :
    bisect p l lo hi = l₁.length := by
  fun_induction bisect p l lo hi with
  | case1 lo hi hlt mid a hsome ih =>
    rw [h.filter_getElem?] at hsome
    obtain ⟨hmid, -⟩ := List.getElem?_eq_some_iff.mp hsome
    exact ih hmid hhi
  | case2 lo hi hlt mid hnone ih =>
    rw [h.filter_getElem?] at hnone
    exact ih hlo (List.getElem?_eq_none_iff.mp hnone)
  | case3 lo hi hge => omega

/-- What the loop has seen last is the last element before `low`. -/
theorem floorLoop_eq (h : Cut p l l₁ l₂) {value : α → β} {low high : ℤ} {found init : β}
    (hlow : 0 ≤ low) (hle : low ≤ l₁.length) (hhigh : l₁.length ≤ high + 1)
    (hfound : found = ((l₁.take low.toNat).getLast?.map value).getD init) :
    floorLoop p value l low high found = (l₁.getLast?.map value).getD init := by
  fun_induction floorLoop p value l low high found with
  | case1 low high found hwindow mid a hsome ih =>
    have hmid : mid = (low + high) / 2 := rfl
    rw [h.filter_getElem?] at hsome
    obtain ⟨hlt, ha⟩ := List.getElem?_eq_some_iff.mp hsome
    refine ih (by omega) (by omega) hhigh ?_
    rw [show (mid + 1).toNat = mid.toNat + 1 by omega, List.take_add_one, hsome]
    simp
  | case2 low high found hwindow mid hnone ih =>
    have hmid : mid = (low + high) / 2 := rfl
    rw [h.filter_getElem?, List.getElem?_eq_none_iff] at hnone
    exact ih hlow hle (by omega) hfound
  | case3 low high found hwindow =>
    rw [hfound, List.take_of_length_le (by omega)]

/-- **The search finds the last element before the cut**, and the default if there is none. -/
theorem floorSearch_eq (h : Cut p l l₁ l₂) (value : α → β) (found : β) :
    floorSearch p value l found = (l₁.getLast?.map value).getD found := by
  have hle := h.length_le
  exact floorLoop_eq h le_rfl (by omega) (by omega) (by simp)

end Relay
