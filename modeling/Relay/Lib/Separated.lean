import Mathlib.Data.List.Basic

/-!
# Parts joined by a separator

Parts are joined with a separator between them. When the separator may stand in a part as well, the
joint list does not tell where the parts begin. What it does tell are the pieces between separators,
of all parts in a row, and nothing else (`intercalate_eq_iff`). Without separators in the parts
these are the parts themselves.

## Main definitions

* `pieces`: what stands between separators

## Main results

* `splitOn_intercalate`, `intercalate_eq_iff`: the joint list and the pieces determine each other
* `pieces_eq_self`: parts without separators
-/

namespace Relay

namespace Separated

variable {α : Type*} [DecidableEq α] (sep : α)

/-- What stands between separators, in all parts in a row. -/
def pieces (parts : List (List α)) : List (List α) := parts.flatMap (List.splitOn sep)

variable {sep} {parts parts' : List (List α)}

theorem splitOn_intercalate (hne : parts ≠ []) :
    (List.intercalate [sep] parts).splitOn sep = pieces sep parts := by
  induction parts with
  | nil => exact absurd rfl hne
  | cons part parts ih =>
    cases parts with
    | nil => rw [List.intercalate_singleton, pieces, List.flatMap_singleton]
    | cons next parts =>
      rw [List.intercalate_cons_cons, List.append_assoc, List.singleton_append,
        List.splitOn_append_cons_self, ih (List.cons_ne_nil _ _)]
      rfl

/-- **Joint lists are equal** exactly when the pieces between their separators are. -/
theorem intercalate_eq_iff (hne : parts ≠ []) (hne' : parts' ≠ []) :
    List.intercalate [sep] parts = List.intercalate [sep] parts' ↔
      pieces sep parts = pieces sep parts' := by
  rw [← splitOn_intercalate hne, ← splitOn_intercalate hne']
  constructor
  · intro h
    rw [h]
  · intro h
    have hjoined := congrArg (List.intercalate [sep]) h
    rwa [List.intercalate_splitOn, List.intercalate_splitOn] at hjoined

/-- Parts without separators are the pieces. -/
theorem pieces_eq_self (h : ∀ part ∈ parts, sep ∉ part) : pieces sep parts = parts := by
  induction parts with
  | nil => rfl
  | cons part parts ih =>
    rw [List.forall_mem_cons] at h
    have hrest := ih h.2
    rw [pieces] at hrest
    rw [pieces, List.flatMap_cons, List.splitOn_eq_singleton h.1, hrest, List.singleton_append]

end Separated

end Relay
