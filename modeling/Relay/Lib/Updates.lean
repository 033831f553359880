import Mathlib.Data.List.Induction
import Relay.Lib.Dict

/-!
# Tables fed by updates

A copy of a table is kept by applying the updates that the table sends out. An update gives the new
value of a key, or it is a tombstone, and the key is deleted. Whatever came before, the last update
for a key decides what the copy holds for it.

A log of updates is indexed by where the last update of each key stands.

Updates may also be gathered in layers, dictionaries that each hold the last update of some keys.
The newest layer that knows a key decides then, and merging the layers, oldest first, changes
nothing about that.

## Main definitions

* `Dict.apply`, `Dict.replay`: one update, and a list of them
* `latest`: what the last update for a key says
* `positions`: the index of a log of updates
* `newest`: what the newest layer that knows a key says

## Main results

* `Dict.get?_replay_empty`: lookups after updates
* `latest_eq_some_iff`: a value stands if nothing came after it
* `map_get?_positions`: the index finds what the last update says
* `Dict.get?_foldl_update`: lookups after a merge
-/

namespace Relay

variable {α β : Type*} [DecidableEq α]

namespace Dict

/-- Apply an update. -/
def apply (d : Dict α β) : α × Option β → Dict α β
  | (a, some b) => d.set a b
  | (a, none) => d.erase a

/-- Apply updates, oldest first. -/
def replay (d : Dict α β) (us : List (α × Option β)) : Dict α β :=
  us.foldl apply d

theorem get?_apply (d : Dict α β) (u : α × Option β) (k : α) :
    (d.apply u).get? k = if k = u.1 then u.2 else d.get? k := by
  obtain ⟨a, b | b⟩ := u
  · exact d.get?_erase a k
  · exact d.get?_set a b k

theorem replay_append (d : Dict α β) (us vs : List (α × Option β)) :
    d.replay (us ++ vs) = (d.replay us).replay vs :=
  List.foldl_append

theorem replay_append_singleton (d : Dict α β) (us : List (α × Option β)) (u : α × Option β) :
    d.replay (us ++ [u]) = (d.replay us).apply u :=
  List.foldl_concat _ _ _ _

end Dict

/-- What the last update for a key says: its value, or nothing if there is none or it is a
tombstone. -/
def latest (us : List (α × Option β)) (k : α) : Option β :=
  (us.reverse.lookup k).join

theorem latest_append_singleton (us : List (α × Option β)) (u : α × Option β) (k : α) :
    latest (us ++ [u]) k = if k = u.1 then u.2 else latest us k := by
  obtain ⟨a, b⟩ := u
  rw [latest, List.reverse_append, List.reverse_singleton, List.singleton_append,
    Dict.lookup_cons_ite, latest]
  split <;> rfl

/-- **Lookups after updates.** The last update for a key decides. -/
theorem Dict.get?_replay_empty (us : List (α × Option β)) (k : α) :
    ((∅ : Dict α β).replay us).get? k = latest us k := by
  induction us using List.reverseRecOn with
  | nil => rfl
  | append_singleton us u ih =>
    rw [replay_append_singleton, get?_apply, latest_append_singleton, ih]

/-- A value stands if no update for the key came after it. -/
theorem latest_eq_some_iff {us : List (α × Option β)} {k : α} {b : β} :
    latest us k = some b ↔
      ∃ before after, us = before ++ (k, some b) :: after ∧ ∀ u ∈ after, u.1 ≠ k := by
  induction us using List.reverseRecOn with
  | nil =>
    refine iff_of_false nofun ?_
    rintro ⟨before, after, h, -⟩
    exact List.cons_ne_nil _ _ (List.append_eq_nil_iff.mp h.symm).2
  | append_singleton us u ih =>
    rw [latest_append_singleton]
    constructor
    · intro h
      split at h
      · next hk =>
        obtain rfl : u = (k, some b) := Prod.ext hk.symm h
        exact ⟨us, [], rfl, List.forall_mem_nil _⟩
      · next hk =>
        obtain ⟨before, after, rfl, hafter⟩ := ih.mp h
        refine ⟨before, after ++ [u], by rw [List.append_assoc]; rfl, ?_⟩
        exact List.forall_mem_append.mpr ⟨hafter, List.forall_mem_singleton.mpr (Ne.symm hk)⟩
    · rintro ⟨before, after, h, hafter⟩
      rcases List.eq_nil_or_concat after with rfl | ⟨after, v, rfl⟩
      · obtain ⟨-, hu⟩ := List.append_inj' h rfl
        obtain rfl := List.singleton_inj.mp hu
        exact if_pos rfl
      · rw [List.concat_eq_append] at h hafter
        rw [← List.cons_append, ← List.append_assoc] at h
        obtain ⟨rfl, hu⟩ := List.append_inj' h rfl
        obtain rfl := List.singleton_inj.mp hu
        obtain ⟨hafter, hne⟩ := List.forall_mem_append.mp hafter
        rw [if_neg (List.forall_mem_singleton.mp hne).symm]
        exact ih.mpr ⟨before, after, rfl, hafter⟩

/-! ### Indexed logs -/

/-- Where the last update of each key stands, for the keys that it does not delete. -/
def positions (us : List (α × Option β)) : Dict α ℕ :=
  Dict.replay ∅ (us.zipIdx.map fun e => (e.1.1, e.1.2.map fun _ => e.2))

theorem positions_append_singleton (us : List (α × Option β)) (a : α) (b : Option β) :
    positions (us ++ [(a, b)]) = (positions us).apply (a, b.map fun _ => us.length) := by
  rw [positions, List.zipIdx_append, List.map_append, Dict.replay_append]
  simp only [List.zipIdx_singleton, Nat.zero_add, List.map_singleton]
  rfl

/-- **An indexed lookup.** What stands at the position of a key is the last update for it. -/
theorem map_get?_positions (us : List (α × Option β)) (k : α) :
    ((positions us).get? k).map (us[·]?) = (latest us k).map fun b => some (k, some b) := by
  induction us using List.reverseRecOn with
  | nil => rfl
  | append_singleton us u ih =>
    obtain ⟨a, b⟩ := u
    rw [positions_append_singleton, Dict.get?_apply, latest_append_singleton]
    split
    · next hk =>
      obtain rfl : k = a := hk
      cases b with
      | none => rfl
      | some b => exact congrArg some List.getElem?_concat_length
    · rw [← ih]
      cases hi : (positions us).get? k with
      | none => rfl
      | some i =>
        rw [hi] at ih
        obtain ⟨b, -, hb⟩ := Option.map_eq_some_iff.mp ih.symm
        have hlt := (List.getElem?_eq_some_iff.mp hb.symm).1
        exact congrArg some (List.getElem?_append_left hlt)

/-- A key is at a position if its last update is a value, and that is what stands there. -/
theorem getElem?_of_get?_positions {us : List (α × Option β)} {k : α} {i : ℕ}
    (h : (positions us).get? k = some i) :
    ∃ b, us[i]? = some (k, some b) ∧ latest us k = some b := by
  have hmap := map_get?_positions us k
  rw [h] at hmap
  obtain ⟨b, hlatest, hb⟩ := Option.map_eq_some_iff.mp hmap.symm
  exact ⟨b, hb.symm, hlatest⟩

theorem latest_of_get?_positions {us : List (α × Option β)} {k : α}
    (h : (positions us).get? k = none) : latest us k = none := by
  have hmap := map_get?_positions us k
  rw [h] at hmap
  exact Option.map_eq_none_iff.mp hmap.symm

/-! ### Layers -/

/-- What the newest layer that knows a key says of it. The oldest layer stands first. -/
def newest (layers : List (Dict α β)) (k : α) : Option β :=
  layers.reverse.findSome? fun d => d.get? k

theorem newest_append_singleton (layers : List (Dict α β)) (d : Dict α β) (k : α) :
    newest (layers ++ [d]) k = (d.get? k).or (newest layers k) := by
  rw [newest, List.reverse_append, List.reverse_singleton, List.singleton_append,
    List.findSome?_cons]
  cases d.get? k with
  | none => rfl
  | some b => rfl

/-- **Lookups after a merge.** The newest layer decides. -/
theorem Dict.get?_foldl_update (layers : List (Dict α β)) (k : α) :
    (layers.foldl update ∅).get? k = newest layers k := by
  induction layers using List.reverseRecOn with
  | nil => rfl
  | append_singleton layers d ih =>
    rw [List.foldl_append, List.foldl_cons, List.foldl_nil, get?_update, ih,
      newest_append_singleton]

end Relay
