import Mathlib.Data.List.Flatten
import Mathlib.Order.Lattice

/-!
# Lists merged by their heads

Several lists are merged by taking the least of their heads, again and again, from the list that it
heads. If the lists are sorted, nothing that is still to come is smaller than what is taken, so the
merged list is sorted, too, and it holds what the lists hold.

Equal values come out of a sorted list in a row. So whoever leaves out a value that has just been
taken keeps every value once.

## Main definitions

* `Merged`: a list that comes of taking least heads
* `collapse`: the values that differ from the one before

## Main results

* `Merged.sorted` and `Merged.perm`: what the merged list is
* `pairwise_collapse` and `mem_collapse`: what is kept of it when equal values are left out
-/

namespace Relay

namespace Heads

variable {α : Type*} [LinearOrder α] {rests : List (List α)} {merged tail l : List α} {i : ℕ}
  {v : α}

/-- Least heads are taken until all lists are empty. -/
inductive Merged : List (List α) → List α → Prop
  | done {rests : List (List α)} (hempty : ∀ r ∈ rests, r = []) : Merged rests []
  | take {rests : List (List α)} {merged : List α} (i : ℕ) (v : α) (tail : List α)
      (hhead : rests[i]? = some (v :: tail)) (hleast : ∀ r ∈ rests, ∀ x ∈ r.head?, v ≤ x)
      (hrest : Merged (rests.set i tail) merged) : Merged rests (v :: merged)

omit [LinearOrder α] in
/-- Taking a head leaves what else there is. -/
theorem flatten_perm_cons (h : rests[i]? = some (v :: tail)) :
    rests.flatten.Perm (v :: (rests.set i tail).flatten) := by
  obtain ⟨hi, hget⟩ := List.getElem?_eq_some_iff.mp h
  have hflatten : rests.flatten =
      (rests.take i).flatten ++ v :: (tail ++ (rests.drop (i + 1)).flatten) := by
    conv_lhs => rw [← List.take_append_drop i rests, List.drop_eq_getElem_cons hi, hget]
    rw [List.flatten_append, List.flatten_cons, List.cons_append]
  rw [List.set_eq_take_append_cons_drop, if_pos hi, hflatten, List.flatten_append,
    List.flatten_cons]
  exact List.perm_middle

/-- Of sorted lists, no element is smaller than the least head. -/
theorem le_of_mem_flatten (hsorted : ∀ r ∈ rests, r.Pairwise (· ≤ ·))
    (hleast : ∀ r ∈ rests, ∀ x ∈ r.head?, v ≤ x) {y : α} (hy : y ∈ rests.flatten) : v ≤ y := by
  obtain ⟨r, hr, hyr⟩ := List.mem_flatten.mp hy
  cases r with
  | nil => cases hyr
  | cons x r =>
    have hx := hleast _ hr x rfl
    rcases List.mem_cons.mp hyr with rfl | hyr
    · exact hx
    · exact hx.trans ((List.pairwise_cons.mp (hsorted _ hr)).1 y hyr)

/-- What is left of sorted lists is sorted. -/
theorem sorted_set (hsorted : ∀ r ∈ rests, r.Pairwise (· ≤ ·)) (h : rests[i]? = some (v :: tail)) :
    ∀ r ∈ rests.set i tail, r.Pairwise (· ≤ ·) := by
  intro r hr
  rcases List.mem_or_eq_of_mem_set hr with hr | rfl
  · exact hsorted r hr
  · exact (List.pairwise_cons.mp (hsorted _ (List.mem_of_getElem? h))).2

/-- **The merged list holds what the lists hold.** -/
theorem Merged.perm (h : Merged rests merged) : merged.Perm rests.flatten := by
  induction h with
  | done hempty => rw [List.flatten_eq_nil_iff.mpr hempty]
  | take i v tail hhead hleast hrest ih =>
    exact (ih.cons v).trans (flatten_perm_cons hhead).symm

/-- **The merged list is sorted.** -/
theorem Merged.sorted (h : Merged rests merged) (hsorted : ∀ r ∈ rests, r.Pairwise (· ≤ ·)) :
    merged.Pairwise (· ≤ ·) := by
  induction h with
  | done hempty => exact .nil
  | take i v tail hhead hleast hrest ih =>
    refine List.pairwise_cons.mpr ⟨fun y hy => ?_, ih (sorted_set hsorted hhead)⟩
    refine le_of_mem_flatten hsorted hleast ((flatten_perm_cons hhead).mem_iff.mpr ?_)
    exact List.mem_cons_of_mem v (hrest.perm.mem_iff.mp hy)

/-! ### Leaving out equal values -/

/-- The values of a list that differ from the one before, or from the last one there was. -/
def collapse : Option α → List α → List α
  | _, [] => []
  | last, v :: l => if last = some v then collapse last l else v :: collapse (some v) l

/-- **Every value is kept**, unless it was the last one there was. -/
theorem mem_collapse {last : Option α} {y : α} (hsorted : (last.toList ++ l).Pairwise (· ≤ ·)) :
    y ∈ collapse last l ↔ y ∈ l ∧ last ≠ some y := by
  induction l generalizing last with
  | nil => exact iff_of_false List.not_mem_nil fun h => absurd h.1 List.not_mem_nil
  | cons v l ih =>
    obtain ⟨-, htail, hbefore⟩ := List.pairwise_append.mp hsorted
    obtain ⟨hv, hl⟩ := List.pairwise_cons.mp htail
    rw [collapse]
    split
    · next hlast =>
      subst hlast
      have hrest : ((some v).toList ++ l).Pairwise (· ≤ ·) := htail
      rw [ih hrest, List.mem_cons]
      constructor
      · rintro ⟨hy, hne⟩
        exact ⟨Or.inr hy, hne⟩
      · rintro ⟨rfl | hy, hne⟩
        · exact absurd rfl hne
        · exact ⟨hy, hne⟩
    · next hlast =>
      have hrest : ((some v).toList ++ l).Pairwise (· ≤ ·) := htail
      rw [List.mem_cons, ih hrest, List.mem_cons]
      constructor
      · rintro (rfl | ⟨hy, hne⟩)
        · exact ⟨Or.inl rfl, hlast⟩
        · refine ⟨Or.inr hy, ?_⟩
          rintro rfl
          -- the last one there was is no larger than what is in front of it
          exact hne (congrArg some (le_antisymm (hv y hy) (hbefore y (by simp) v
            List.mem_cons_self)))
      · rintro ⟨rfl | hy, hne⟩
        · exact Or.inl rfl
        · rcases eq_or_ne (some v) (some y) with heq | hne'
          · exact Or.inl (Option.some.inj heq).symm
          · exact Or.inr ⟨hy, hne'⟩

/-- **No value is kept twice.** -/
theorem pairwise_collapse {last : Option α} (hsorted : (last.toList ++ l).Pairwise (· ≤ ·)) :
    (collapse last l).Pairwise (· < ·) := by
  induction l generalizing last with
  | nil => exact .nil
  | cons v l ih =>
    have htail := (List.pairwise_append.mp hsorted).2.1
    have hrest : ((some v).toList ++ l).Pairwise (· ≤ ·) := htail
    rw [collapse]
    split
    · next hlast =>
      subst hlast
      exact ih hrest
    · refine List.pairwise_cons.mpr ⟨fun y hy => ?_, ih hrest⟩
      obtain ⟨hy, hne⟩ := (mem_collapse hrest).mp hy
      exact lt_of_le_of_ne ((List.pairwise_cons.mp htail).1 y hy) fun heq => hne (heq ▸ rfl)

end Heads

end Relay
