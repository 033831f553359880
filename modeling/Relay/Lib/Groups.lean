import Mathlib.Data.List.Perm.Basic
import Relay.Lib.Dict

/-!
# Dictionaries of groups

The items of a list are kept in a dictionary, in lists by a key of theirs. The lists may hold less
than the items, what is kept of them; and the keys may come in an order of their own. Going through
the lists of the dictionary, one after another, then meets every item once.

## Main definitions

* `Dict.Groups`: a dictionary holds the items of a list by their keys

## Main results

* `Dict.Groups.append_singleton`: one item more
* `Dict.Groups.flatMap_values_perm`: going through the groups
-/

namespace Relay

namespace Dict

variable {κ α β γ : Type*} [DecidableEq κ]

/-- The dictionary holds, at every key, what is kept of the items with that key, in their order. -/
def Groups (key : α → κ) (kept : α → β) (d : Dict κ (List β)) (items : List α) : Prop :=
  ∀ k, d.getD k [] = (items.filter fun x => key x = k).map kept

variable {key : α → κ} {kept : α → β} {d : Dict κ (List β)} {items : List α}

theorem groups_empty : Groups key kept ∅ [] := fun _ => rfl

/-- One item more, at the end of its group. -/
theorem Groups.append_singleton (h : Groups key kept d items) (x : α) :
    Groups key kept (d.set (key x) (d.getD (key x) [] ++ [kept x])) (items ++ [x]) := by
  intro k
  rw [getD_set, List.filter_append, List.map_append, ← h k]
  by_cases hk : k = key x
  · rw [if_pos hk, hk]
    simp
  · have hx : key x ≠ k := fun heq => hk heq.symm
    rw [if_neg hk]
    simp [hx]

/-- The groups of distinct keys that include all keys of the items make up the items. -/
theorem flatMap_filter_perm {ks : List κ} (hks : ks.Nodup) (hcovers : ∀ x ∈ items, key x ∈ ks) :
    (ks.flatMap fun k => items.filter fun x => key x = k).Perm items := by
  induction ks generalizing items with
  | nil =>
    rw [List.eq_nil_iff_forall_not_mem.mpr fun x hx => List.not_mem_nil (hcovers x hx)]
    exact .nil
  | cons k ks ih =>
    obtain ⟨hk, hks⟩ := List.nodup_cons.mp hks
    -- the other groups are those of the items without the first one
    have hothers : (ks.flatMap fun k' => items.filter fun x => key x = k') =
        ks.flatMap fun k' => (items.filter fun x => !decide (key x = k)).filter
          fun x => key x = k' := by
      refine List.flatMap_congr fun k' hk' => ?_
      rw [List.filter_filter]
      refine List.filter_congr fun x _ => ?_
      have hne : k' ≠ k := fun h => hk (h ▸ hk')
      by_cases hx : key x = k'
      · simp [hx, hne]
      · simp [hx]
    rw [List.flatMap_cons, hothers]
    refine ((ih hks fun x hx => ?_).append_left _).trans (List.filter_append_perm _ items)
    obtain ⟨hmem, hx⟩ := List.mem_filter.mp hx
    exact (List.mem_cons.mp (hcovers x hmem)).resolve_left (by simpa using hx)

/-- The key of an item is a key of the dictionary. -/
theorem Groups.mem_keys (h : Groups key kept d items) {x : α} (hx : x ∈ items) :
    key x ∈ d.keys := by
  by_contra hnot
  have hgroup := h (key x)
  rw [getD_of_not_mem_keys hnot, eq_comm, List.map_eq_nil_iff] at hgroup
  have hmem : x ∈ items.filter fun y => key y = key x :=
    List.mem_filter.mpr ⟨hx, decide_eq_true rfl⟩
  rw [hgroup] at hmem
  cases hmem

/-- **Going through the groups.** What is read off each group for its items that meet `p`, is read
off the items that meet `p`. -/
theorem Groups.flatMap_values_perm (h : Groups key kept d items) (read : List β → List γ)
    {p : α → Bool} {f : α → γ} (hread : ∀ l : List α, read (l.map kept) = (l.filter p).map f) :
    (d.values.flatMap read).Perm ((items.filter p).map f) := by
  have hgroups : d.values.flatMap read =
      (d.keys.flatMap fun k => (items.filter p).filter fun x => key x = k).map f := by
    rw [d.values_eq_map_keys [], List.flatMap_map, List.map_flatMap]
    refine List.flatMap_congr fun k _ => ?_
    rw [h k, hread, List.filter_filter, List.filter_filter]
    simp only [Bool.and_comm]
  rw [hgroups]
  exact (flatMap_filter_perm d.nodup fun x hx => h.mem_keys (List.mem_filter.mp hx).1).map f

end Dict

end Relay
