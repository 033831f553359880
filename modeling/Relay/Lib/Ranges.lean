import Mathlib.Order.Bounds.Basic
import Mathlib.Order.Interval.Set.LinearOrder
import Mathlib.Order.MinMax

/-!
# Ranges and what they cover

Ranges on a line, each with its start and without its end, cover a set of points. Two that overlap
or abut cover what one range covers (`cover_join`). Once nothing is left to join, that is, when the
ranges are not empty and each ends strictly before the next one starts, the list can be read off the
points that it covers: the first range starts at the least of them, and ends at the least point
after that which is not covered (`eq_of_cover_eq`).

## Main definitions

* `cover`: the points that lie in one of the ranges
* `Gapped`: ranges with something between them

## Main results

* `cover_join`: two ranges as one
* `eq_of_cover_eq`: ranges with something between them, by what they cover
-/

namespace Relay

namespace Ranges

variable {τ : Type*} [LinearOrder τ]

/-- The points that lie in one of the ranges. -/
def cover (l : List (τ × τ)) : Set τ := {x | ∃ r ∈ l, r.1 ≤ x ∧ x < r.2}

/-- Ranges that are not empty, each of which ends strictly before those after it start. -/
structure Gapped (l : List (τ × τ)) : Prop where
  nonempty : ∀ r ∈ l, r.1 < r.2
  gap : l.Pairwise fun r s => r.2 < s.1

variable {r s : τ × τ} {l m : List (τ × τ)} {x : τ}

theorem mem_cover : x ∈ cover l ↔ ∃ r ∈ l, r.1 ≤ x ∧ x < r.2 :=
  Iff.rfl

theorem cover_nil : cover ([] : List (τ × τ)) = ∅ := by
  ext x
  simp [mem_cover]

theorem cover_cons : cover (r :: l) = Set.Ico r.1 r.2 ∪ cover l := by
  ext x
  simp [mem_cover]

theorem cover_congr (h : ∀ r, r ∈ l ↔ r ∈ m) : cover l = cover m := by
  ext x
  simp only [mem_cover, h]

/-- **Two ranges as one.** A range that starts no later than the end of one that started before it
is joined to that one. -/
theorem cover_join (hstart : r.1 ≤ s.1) (hreach : s.1 ≤ r.2) :
    cover ((r.1, max r.2 s.2) :: l) = cover (r :: s :: l) := by
  rw [cover_cons, cover_cons, cover_cons, ← Set.union_assoc]
  congr 1
  ext x
  simp only [Set.mem_union, Set.mem_Ico, lt_max_iff]
  constructor
  · rintro ⟨hlow, hhigh⟩
    rcases lt_or_ge x r.2 with hin | hout
    · exact Or.inl ⟨hlow, hin⟩
    · exact Or.inr ⟨hreach.trans hout, hhigh.resolve_left (not_lt.mpr hout)⟩
  · rintro (⟨hlow, hhigh⟩ | ⟨hlow, hhigh⟩)
    · exact ⟨hlow, Or.inl hhigh⟩
    · exact ⟨hstart.trans hlow, Or.inr hhigh⟩

namespace Gapped

theorem nil : Gapped ([] : List (τ × τ)) :=
  ⟨fun _ hr => absurd hr List.not_mem_nil, List.Pairwise.nil⟩

theorem cons_iff : Gapped (r :: l) ↔ r.1 < r.2 ∧ (∀ s ∈ l, r.2 < s.1) ∧ Gapped l := by
  constructor
  · rintro ⟨hne, hgap⟩
    obtain ⟨hfirst, hgap⟩ := List.pairwise_cons.mp hgap
    exact ⟨hne r List.mem_cons_self, hfirst, fun s hs => hne s (List.mem_cons_of_mem r hs), hgap⟩
  · rintro ⟨hne, hfirst, hl⟩
    exact ⟨List.forall_mem_cons.mpr ⟨hne, hl.nonempty⟩, List.pairwise_cons.mpr ⟨hfirst, hl.gap⟩⟩

/-- What the others cover lies beyond the end of the first range. -/
theorem end_lt_of_mem_cover (h : Gapped (r :: l)) (hx : x ∈ cover l) : r.2 < x := by
  obtain ⟨s, hs, hlow, -⟩ := hx
  exact ((cons_iff.mp h).2.1 s hs).trans_le hlow

/-- The first range starts at the least point that is covered. -/
theorem isLeast_start (h : Gapped (r :: l)) : IsLeast (cover (r :: l)) r.1 := by
  have hne := (cons_iff.mp h).1
  rw [cover_cons]
  refine ⟨Or.inl ⟨le_refl _, hne⟩, ?_⟩
  rintro x (hx | hx)
  · exact hx.1
  · exact hne.le.trans (h.end_lt_of_mem_cover hx).le

/-- The first range ends at the least point from its start on that is not covered. -/
theorem isLeast_end (h : Gapped (r :: l)) :
    IsLeast {x | r.1 ≤ x ∧ x ∉ cover (r :: l)} r.2 := by
  rw [cover_cons]
  refine ⟨⟨(cons_iff.mp h).1.le, ?_⟩, ?_⟩
  · rintro (hx | hx)
    · exact lt_irrefl _ hx.2
    · exact lt_irrefl _ (h.end_lt_of_mem_cover hx)
  · rintro x ⟨hlow, hx⟩
    exact not_lt.mp fun hlt => hx (Or.inl ⟨hlow, hlt⟩)

/-- What the others cover is what is covered beyond the end of the first range. -/
theorem cover_tail (h : Gapped (r :: l)) : cover l = {x ∈ cover (r :: l) | r.2 < x} := by
  ext x
  rw [cover_cons]
  constructor
  · intro hx
    exact ⟨Or.inr hx, h.end_lt_of_mem_cover hx⟩
  · rintro ⟨hx | hx, hlt⟩
    · exact absurd hx.2 hlt.le.not_gt
    · exact hx

end Gapped

/-- **Ranges by what they cover.** If there is something between the ranges of a list, no other such
list covers the same points. -/
theorem eq_of_cover_eq (hl : Gapped l) (hm : Gapped m) (h : cover l = cover m) : l = m := by
  induction l generalizing m with
  | nil =>
    cases m with
    | nil => rfl
    | cons s m =>
      have hs := hm.isLeast_start.1
      rw [← h, cover_nil] at hs
      exact absurd hs (Set.notMem_empty _)
  | cons r l ih =>
    cases m with
    | nil =>
      have hr := hl.isLeast_start.1
      rw [h, cover_nil] at hr
      exact absurd hr (Set.notMem_empty _)
    | cons s m =>
      have hstart : r.1 = s.1 := (h ▸ hl.isLeast_start).unique hm.isLeast_start
      have hend : r.2 = s.2 := by
        have hleast := hl.isLeast_end
        rw [h, hstart] at hleast
        exact hleast.unique hm.isLeast_end
      have htail : cover l = cover m := by
        rw [hl.cover_tail, hm.cover_tail, h, hend]
      rw [Prod.ext hstart hend, ih (Gapped.cons_iff.mp hl).2.2 (Gapped.cons_iff.mp hm).2.2 htail]

end Ranges

end Relay
