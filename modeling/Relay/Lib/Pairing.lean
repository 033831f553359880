import Mathlib.Data.List.Basic
import Mathlib.Data.Set.Function

/-!
# Folding a list by pairs

The neighbours of a list are joined two by two, a lone one at the end with itself, and again, until
no more than one element is left. At every level a list has half the elements, whatever they are, so
two lists of equal length are folded through the same levels (`length_climb`).

If joining tells apart the pairs that are joined on the way, equal ends come from equal levels, down
to the lists themselves (`eq_of_climb_eq`). That the lengths are equal matters: a lone element and
two equal ones are the same pair.

## Main definitions

* `pairs`: the neighbours of a list
* `climb`: the fold
* `joined`: the pairs that are joined on the way

## Main results

* `forall_joined`: what holds of a list and of what is joined holds of all joined pairs
* `eq_of_climb_eq`: equal ends come from equal lists
-/

namespace Relay

namespace Pairing

variable {α β : Type*}

/-- The neighbours of a list, two by two. A lone one at the end is its own neighbour. -/
def pairs : List α → List (α × α)
  | [] => []
  | [a] => [(a, a)]
  | a :: b :: l => (a, b) :: pairs l

theorem length_pairs (l : List α) : (pairs l).length = (l.length + 1) / 2 := by
  fun_induction pairs l with
  | case1 => simp
  | case2 a => simp
  | case3 a b l ih =>
    rw [List.length_cons, List.length_cons, List.length_cons, ih]
    omega

theorem length_map_pairs (f : α × α → β) (l : List α) :
    ((pairs l).map f).length = (l.length + 1) / 2 := by
  rw [List.length_map, length_pairs]

theorem mem_of_mem_pairs {l : List α} {p : α × α} (h : p ∈ pairs l) : p.1 ∈ l ∧ p.2 ∈ l := by
  fun_induction pairs l with
  | case1 => exact absurd h List.not_mem_nil
  | case2 a =>
    rw [List.mem_singleton.mp h]
    exact ⟨List.mem_cons_self, List.mem_cons_self⟩
  | case3 a b l ih =>
    rcases List.mem_cons.mp h with rfl | h
    · exact ⟨List.mem_cons_self, List.mem_cons_of_mem _ List.mem_cons_self⟩
    · obtain ⟨hfst, hsnd⟩ := ih h
      exact ⟨List.mem_cons_of_mem _ (List.mem_cons_of_mem _ hfst),
        List.mem_cons_of_mem _ (List.mem_cons_of_mem _ hsnd)⟩

/-- Lists of equal length are equal if their neighbours are. -/
theorem eq_of_pairs_eq {l m : List α} (hlength : l.length = m.length) (h : pairs l = pairs m) :
    l = m := by
  induction l using pairs.induct generalizing m with
  | case1 => exact (List.length_eq_zero_iff.mp hlength.symm).symm
  | case2 a =>
    obtain ⟨b, rfl⟩ := List.length_eq_one_iff.mp hlength.symm
    rw [(Prod.mk.inj (List.cons.inj h).1).1]
  | case3 a b l ih =>
    rcases m with _ | ⟨c, _ | ⟨d, m⟩⟩
    · exact absurd hlength (Nat.succ_ne_zero _)
    · exact absurd (Nat.succ.inj hlength) (Nat.succ_ne_zero _)
    · obtain ⟨hpair, hrest⟩ := List.cons.inj h
      obtain ⟨rfl, rfl⟩ := Prod.mk.inj hpair
      rw [ih (Nat.succ.inj (Nat.succ.inj hlength)) hrest]

/-- Lists are equal if their images are, under a function that tells their elements apart. -/
theorem eq_of_map_eq {f : α → β} {s : Set α} (hf : Set.InjOn f s) {l m : List α}
    (hl : ∀ a ∈ l, a ∈ s) (hm : ∀ a ∈ m, a ∈ s) (h : l.map f = m.map f) : l = m := by
  induction l generalizing m with
  | nil => exact (List.map_eq_nil_iff.mp h.symm).symm
  | cons a l ih =>
    obtain ⟨b, m, rfl, hb, hrest⟩ := List.map_eq_cons_iff.mp h.symm
    obtain ⟨ha, hl⟩ := List.forall_mem_cons.mp hl
    obtain ⟨hb', hm⟩ := List.forall_mem_cons.mp hm
    rw [hf ha hb' hb.symm, ih hl hm hrest.symm]

variable (join : α × α → α)

/-- Neighbours are joined, again and again, until no more than one element is left. -/
def climb (l : List α) : List α :=
  if 1 < l.length then climb ((pairs l).map join) else l
termination_by l.length
decreasing_by
  rw [length_map_pairs]
  omega

/-- The pairs that are joined on the way. -/
def joined (l : List α) : List (α × α) :=
  if 1 < l.length then pairs l ++ joined ((pairs l).map join) else []
termination_by l.length
decreasing_by
  rw [length_map_pairs]
  omega

variable {join} {l m : List α}

/-- One element is left of a list that is not empty. -/
theorem length_climb (h : l ≠ []) : (climb join l).length = 1 := by
  fun_induction climb join l with
  | case1 l hlength ih =>
    refine ih fun hnil => ?_
    have hzero := congrArg List.length hnil
    rw [length_map_pairs, List.length_nil] at hzero
    omega
  | case2 l hlength =>
    have hpos := List.length_pos_iff.mpr h
    omega

/-- What holds of the elements of a list, and of whatever is joined, holds of all that are joined
on the way. -/
theorem forall_joined {P : α → Prop} (hl : ∀ a ∈ l, P a) (hjoin : ∀ p, P (join p)) :
    ∀ p ∈ joined join l, P p.1 ∧ P p.2 := by
  fun_induction joined join l with
  | case1 l hlength ih =>
    intro p hp
    rcases List.mem_append.mp hp with hp | hp
    · obtain ⟨hfst, hsnd⟩ := mem_of_mem_pairs hp
      exact ⟨hl _ hfst, hl _ hsnd⟩
    · refine ih (fun a ha => ?_) p hp
      obtain ⟨q, -, rfl⟩ := List.mem_map.mp ha
      exact hjoin q
  | case2 l hlength =>
    intro p hp
    exact absurd hp List.not_mem_nil

/-- **Equal ends come from equal lists**, if joining tells apart the pairs that are joined on the
way. -/
theorem eq_of_climb_eq (hlength : l.length = m.length)
    (hjoin : Set.InjOn join {p | p ∈ joined join l ∨ p ∈ joined join m})
    (h : climb join l = climb join m) : l = m := by
  induction l using climb.induct join generalizing m with
  | case1 l hmore ih =>
    rw [climb.eq_def join l, climb.eq_def join m, if_pos hmore, if_pos (hlength ▸ hmore)] at h
    rw [joined.eq_def join l, joined.eq_def join m, if_pos hmore, if_pos (hlength ▸ hmore)] at hjoin
    have hpairs : (pairs l).map join = (pairs m).map join := by
      refine ih ?_ (hjoin.mono ?_) h
      · rw [length_map_pairs, length_map_pairs, hlength]
      · rintro p (hp | hp)
        · exact Or.inl (List.mem_append_right _ hp)
        · exact Or.inr (List.mem_append_right _ hp)
    refine eq_of_pairs_eq hlength (eq_of_map_eq hjoin ?_ ?_ hpairs)
    · exact fun p hp => Or.inl (List.mem_append_left _ hp)
    · exact fun p hp => Or.inr (List.mem_append_left _ hp)
  | case2 l hone =>
    rwa [climb.eq_def join l, climb.eq_def join m, if_neg hone, if_neg (hlength ▸ hone)] at h

end Pairing

end Relay
