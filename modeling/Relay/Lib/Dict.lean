import Mathlib.Data.List.Nodup
import Mathlib.Data.List.Lookmap
import Mathlib.Data.List.Pairwise
import Mathlib.Data.List.Sort

/-!
# Insertion-ordered dictionaries

A dictionary that iterates in the order its keys were first inserted: assigning to a key that is
present replaces the value where it stands, assigning to a new key appends, and deleting and
inserting again moves the key to the end. The association list is kept as a field, together with
the fact that its keys are distinct, so iteration is the list itself and no dictionary with two
entries for one key can be built.

Proofs about programs go through `get?`: every operation has one lemma that says what a lookup
gives afterwards.

## Main definitions

* `Dict`, with `get?`, `set`, `erase`, `filter`, `mapValues`, `update`, `ofList`, `keys` and
  `values`
* `Dict.getD`, `Dict.setDefault`, `Dict.mergeWith`: lookups with a default, filling one in, and
  merging by combining values

## Main results

* `Dict.get?_set`, `get?_erase`, `get?_filter`, `get?_mapValues`, `get?_update`: lookups after each
  operation
* `Dict.forall_get?_set`, `forall_get?_erase`: what an operation keeps of every entry
* `Dict.mem_entries_iff`, `mem_keys_iff`, `mem_values_iff`: the entries, the keys and the values by
  lookups
* `Dict.pairwise_values_iff`: a relation between the values of any two keys
* `Dict.getD_mergeWith`: lookups after a merge
* `Dict.pairwise_lt_mergeSort_keys`: the keys in order
-/

namespace Relay

/-- An insertion-ordered dictionary. -/
structure Dict (α β : Type*) where
  /-- The entries, in the order their keys were first inserted. -/
  entries : List (α × β)
  /-- No key stands twice. -/
  nodup : (entries.map Prod.fst).Nodup

namespace Dict

variable {α β : Type*}

/-- The empty dictionary. -/
def empty : Dict α β := ⟨[], List.nodup_nil⟩

instance : EmptyCollection (Dict α β) := ⟨empty⟩

instance : Inhabited (Dict α β) := ⟨empty⟩

instance [DecidableEq α] [DecidableEq β] : DecidableEq (Dict α β) := fun d e =>
  decidable_of_iff (d.entries = e.entries)
    ⟨fun h => by cases d; cases e; cases h; rfl, fun h => h ▸ rfl⟩

/-- The keys, in iteration order. -/
def keys (d : Dict α β) : List α := d.entries.map Prod.fst

/-- The values, in iteration order. -/
def values (d : Dict α β) : List β := d.entries.map Prod.snd

/-- Keep the entries that meet `p`. -/
def filter (d : Dict α β) (p : α → β → Bool) : Dict α β where
  entries := d.entries.filter fun e => p e.1 e.2
  nodup := d.nodup.sublist (List.filter_sublist.map _)

/-- Every value replaced, where it stands. -/
def mapValues {γ : Type*} (d : Dict α β) (f : α → β → γ) : Dict α γ where
  entries := d.entries.map fun e => (e.1, f e.1 e.2)
  nodup := by
    rw [List.map_map]
    exact d.nodup

variable [DecidableEq α]

/-- The value at a key, if the key is present. -/
def get? (d : Dict α β) (a : α) : Option β := d.entries.lookup a

/-- Replace the value at `a` where it stands, or append a new entry. -/
def setEntries (a : α) (b : β) : List (α × β) → List (α × β)
  | [] => [(a, b)]
  | e :: es => if e.1 = a then (a, b) :: es else e :: setEntries a b es

theorem map_fst_setEntries (a : α) (b : β) (es : List (α × β)) :
    (setEntries a b es).map Prod.fst =
      if a ∈ es.map Prod.fst then es.map Prod.fst else es.map Prod.fst ++ [a] := by
  induction es with
  | nil => simp [setEntries]
  | cons e es ih =>
    by_cases h : e.1 = a
    · subst h; simp [setEntries]
    · have h' : a ≠ e.1 := fun hc => h hc.symm
      rw [setEntries, if_neg h, List.map_cons, ih]
      by_cases hm : a ∈ es.map Prod.fst <;> simp [hm, h']

/-- Assign `b` to the key `a`. -/
def set (d : Dict α β) (a : α) (b : β) : Dict α β where
  entries := setEntries a b d.entries
  nodup := by
    rw [map_fst_setEntries]
    split
    · exact d.nodup
    · next h => exact List.nodup_append.mpr ⟨d.nodup, List.nodup_singleton a, by
        rintro x hx y hy rfl
        exact h (List.mem_singleton.mp hy ▸ hx)⟩

/-- Delete the key `a`. -/
def erase (d : Dict α β) (a : α) : Dict α β := d.filter fun k _ => decide (k ≠ a)

/-- Assign the entries of a list in order. -/
def assign (d : Dict α β) (es : List (α × β)) : Dict α β :=
  es.foldl (fun d e => d.set e.1 e.2) d

/-- The dictionary of a list of entries; a later entry for a key replaces an earlier one. -/
def ofList (es : List (α × β)) : Dict α β := empty.assign es

/-- Assign every entry of `e`, in its order. -/
def update (d e : Dict α β) : Dict α β := d.assign e.entries

/-! ### Lookups -/

@[simp] theorem get?_empty (a : α) : (∅ : Dict α β).get? a = none := rfl

theorem lookup_cons_ite (x : α) (y : β) (es : List (α × β)) (k : α) :
    ((x, y) :: es).lookup k = if k = x then some y else es.lookup k := by
  rw [List.lookup_cons]
  by_cases h : k = x
  · rw [beq_iff_eq.mpr h, if_pos h]
  · rw [beq_eq_false_iff_ne.mpr h, if_neg h]

/-- A key that no entry has is not found. -/
theorem lookup_eq_none_iff_not_mem {es : List (α × β)} {k : α} :
    es.lookup k = none ↔ k ∉ es.map Prod.fst := by
  rw [List.lookup_eq_none_iff, List.mem_map, not_exists]
  simp only [bne_iff_ne, not_and]
  exact ⟨fun h e he heq => h e he heq.symm, fun h e he heq => h e he heq.symm⟩

theorem lookup_setEntries (a : α) (b : β) (es : List (α × β)) (k : α) :
    (setEntries a b es).lookup k = if k = a then some b else es.lookup k := by
  induction es with
  | nil => exact lookup_cons_ite a b [] k
  | cons e es ih =>
    obtain ⟨x, y⟩ := e
    by_cases hx : x = a
    · subst hx
      simp only [setEntries, if_true, lookup_cons_ite]
      split <;> rfl
    · by_cases hk : k = x
      · subst hk; simp [setEntries, hx]
      · simp [setEntries, hx, lookup_cons_ite, hk, ih]

theorem get?_set (d : Dict α β) (a : α) (b : β) (k : α) :
    (d.set a b).get? k = if k = a then some b else d.get? k :=
  lookup_setEntries a b d.entries k

@[simp] theorem get?_set_self (d : Dict α β) (a : α) (b : β) : (d.set a b).get? a = some b := by
  rw [get?_set, if_pos rfl]

theorem get?_set_of_ne (d : Dict α β) {a k : α} (b : β) (h : k ≠ a) :
    (d.set a b).get? k = d.get? k := by
  rw [get?_set, if_neg h]

/-- An entry of the list is what a lookup of its key finds: keys are distinct. -/
theorem mem_entries_iff (d : Dict α β) {a : α} {b : β} :
    (a, b) ∈ d.entries ↔ d.get? a = some b := by
  obtain ⟨es, hes⟩ := d
  simp only [get?]
  induction es with
  | nil => simp
  | cons e es ih =>
    obtain ⟨x, y⟩ := e
    rw [List.map_cons, List.nodup_cons] at hes
    rw [List.mem_cons, lookup_cons_ite]
    by_cases hx : a = x
    · subst hx
      have hnot : (a, b) ∉ es := fun hm => hes.1 (List.mem_map.mpr ⟨(a, b), hm, rfl⟩)
      simp [hnot, eq_comm]
    · simp [hx, ih hes.2]

theorem eq_empty_of_forall_get? {d : Dict α β} (h : ∀ a, d.get? a = none) : d = ∅ := by
  obtain ⟨es, hes⟩ := d
  cases es with
  | nil => rfl
  | cons e es =>
    have hfound := (mem_entries_iff ⟨e :: es, hes⟩).mp (List.mem_cons_self : (e.1, e.2) ∈ e :: es)
    rw [h] at hfound
    cases hfound

theorem mem_keys_iff (d : Dict α β) {a : α} : a ∈ d.keys ↔ ∃ b, d.get? a = some b := by
  simp [keys, ← mem_entries_iff]

theorem entries_eq_nil_iff {d : Dict α β} : d.entries = [] ↔ ∀ a, d.get? a = none := by
  constructor
  · intro h a
    rw [get?, h]
    rfl
  · intro h
    rw [eq_empty_of_forall_get? h]
    rfl

/-- Dictionaries with the same lookups have the same keys, in some order. -/
theorem keys_perm {γ : Type*} {d : Dict α β} {e : Dict α γ}
    (h : ∀ a, (d.get? a).isSome = (e.get? a).isSome) : d.keys.Perm e.keys := by
  refine (List.perm_ext_iff_of_nodup d.nodup e.nodup).mpr fun a => ?_
  show a ∈ d.keys ↔ a ∈ e.keys
  rw [mem_keys_iff, mem_keys_iff, ← Option.isSome_iff_exists, ← Option.isSome_iff_exists, h]

theorem mem_values_iff (d : Dict α β) {b : β} : b ∈ d.values ↔ ∃ a, d.get? a = some b := by
  simp [values, ← mem_entries_iff]

/-- A relation between the values of any two keys. -/
theorem pairwise_values_iff {d : Dict α β} {R : β → β → Prop} [Std.Symm R] :
    d.values.Pairwise R ↔
      ∀ a a' b b', a ≠ a' → d.get? a = some b → d.get? a' = some b' → R b b' := by
  rw [values, List.pairwise_map]
  constructor
  · intro h a a' b b' hne hb hb'
    have : Std.Symm fun e e' : α × β => R e.2 e'.2 := ⟨fun e e' hR => Std.Symm.symm e.2 e'.2 hR⟩
    exact h.forall (d.mem_entries_iff.mpr hb) (d.mem_entries_iff.mpr hb')
      fun heq => hne (congrArg Prod.fst heq)
  · intro h
    refine (List.pairwise_map.mp d.nodup).imp_of_mem fun {e e'} he he' hne => ?_
    exact h e.1 e'.1 e.2 e'.2 hne (d.mem_entries_iff.mp he) (d.mem_entries_iff.mp he')

theorem get?_filter (d : Dict α β) (p : α → β → Bool) (a : α) :
    (d.filter p).get? a = (d.get? a).filter (p a) := by
  ext b
  rw [← mem_entries_iff]
  simp [filter, mem_entries_iff, Option.filter_eq_some_iff]

theorem get?_mapValues {γ : Type*} (d : Dict α β) (f : α → β → γ) (a : α) :
    (d.mapValues f).get? a = (d.get? a).map (f a) := by
  ext c
  rw [← mem_entries_iff]
  simp only [mapValues, List.mem_map, Prod.mk.injEq, Prod.exists, Option.map_eq_some_iff,
    ← mem_entries_iff]
  constructor
  · rintro ⟨k, b, hb, rfl, hc⟩
    exact ⟨b, hb, hc⟩
  · rintro ⟨b, hb, hc⟩
    exact ⟨a, b, hb, rfl, hc⟩

theorem get?_erase (d : Dict α β) (a k : α) :
    (d.erase a).get? k = if k = a then none else d.get? k := by
  rw [erase, get?_filter]
  by_cases h : k = a <;> cases d.get? k <;> simp [h]

theorem get?_foldl_erase {γ : Type*} (f : γ → α) (es : List γ) (d : Dict α β) (k : α) :
    (es.foldl (fun d e => d.erase (f e)) d).get? k =
      if k ∈ es.map f then none else d.get? k := by
  induction es generalizing d with
  | nil => rfl
  | cons e es ih =>
    rw [List.foldl_cons, ih, get?_erase]
    by_cases hk : k = f e
    · simp [hk]
    · simp only [List.map_cons, List.mem_cons, hk, false_or, if_false]

/-- What holds of the assigned entry and of those before holds of every entry. -/
theorem forall_get?_set {d : Dict α β} {a : α} {b : β} {P : α → β → Prop} (hset : P a b)
    (h : ∀ k x, k ≠ a → d.get? k = some x → P k x) :
    ∀ k x, (d.set a b).get? k = some x → P k x := by
  intro k x hk
  rw [get?_set] at hk
  split at hk
  · next hkey =>
    subst hkey
    obtain rfl := Option.some.inj hk
    exact hset
  · next hkey => exact h k x hkey hk

/-- What holds of the entries that are kept holds of every entry. -/
theorem forall_get?_erase {d : Dict α β} {a : α} {P : α → β → Prop}
    (h : ∀ k x, k ≠ a → d.get? k = some x → P k x) :
    ∀ k x, (d.erase a).get? k = some x → P k x := by
  intro k x hk
  rw [get?_erase] at hk
  split at hk
  · cases hk
  · next hkey => exact h k x hkey hk

theorem mem_keys_set {d : Dict α β} {a k : α} {b : β} :
    k ∈ (d.set a b).keys ↔ k = a ∨ k ∈ d.keys := by
  rw [mem_keys_iff, mem_keys_iff, get?_set]
  split
  · next hk => exact iff_of_true ⟨b, rfl⟩ (Or.inl hk)
  · next hk => exact (or_iff_right hk).symm

theorem mem_keys_erase {d : Dict α β} {a k : α} : k ∈ (d.erase a).keys ↔ k ≠ a ∧ k ∈ d.keys := by
  rw [mem_keys_iff, mem_keys_iff, get?_erase]
  by_cases h : k = a <;> simp [h]

theorem mem_keys_foldl_erase {γ : Type*} {f : γ → α} {es : List γ} {d : Dict α β} {k : α} :
    k ∈ (es.foldl (fun d e => d.erase (f e)) d).keys ↔ k ∈ d.keys ∧ k ∉ es.map f := by
  rw [mem_keys_iff, mem_keys_iff, get?_foldl_erase]
  split
  · next hk => exact iff_of_false (fun ⟨_, hb⟩ => by cases hb) fun h => h.2 hk
  · next hk => exact (and_iff_left hk).symm

/-- Deleting a key that is present shortens the dictionary. -/
theorem length_erase_lt {d : Dict α β} {a : α} {b : β} (h : d.get? a = some b) :
    (d.erase a).entries.length < d.entries.length := by
  refine List.length_filter_lt_length_iff_exists.mpr ⟨(a, b), d.mem_entries_iff.mpr h, ?_⟩
  simp

theorem get?_assign (d : Dict α β) (es : List (α × β)) (k : α) :
    (d.assign es).get? k = (es.reverse.lookup k).or (d.get? k) := by
  induction es generalizing d with
  | nil => simp [assign]
  | cons e es ih =>
    obtain ⟨x, y⟩ := e
    rw [show d.assign ((x, y) :: es) = (d.set x y).assign es from rfl, ih, get?_set,
      List.reverse_cons, List.lookup_append, lookup_cons_ite]
    cases es.reverse.lookup k <;> by_cases h : k = x <;> simp [h]

/-- One value assigned to several keys. -/
theorem get?_assign_map (d : Dict α β) (keys : List α) (b : β) (k : α) :
    (d.assign (keys.map fun a => (a, b))).get? k = if k ∈ keys then some b else d.get? k := by
  induction keys generalizing d with
  | nil => simp [assign]
  | cons a keys ih =>
    rw [List.map_cons, show d.assign ((a, b) :: keys.map fun a => (a, b)) =
      (d.set a b).assign (keys.map fun a => (a, b)) from rfl, ih, get?_set]
    by_cases hk : k = a <;> simp [hk]

/-- The dictionary with its iteration order reversed. -/
def reverse (d : Dict α β) : Dict α β where
  entries := d.entries.reverse
  nodup := by rw [List.map_reverse]; exact List.nodup_reverse.mpr d.nodup

theorem get?_reverse (d : Dict α β) (a : α) : d.reverse.get? a = d.get? a := by
  ext b
  rw [← mem_entries_iff, ← mem_entries_iff, reverse, List.mem_reverse]

theorem get?_update (d e : Dict α β) (k : α) : (d.update e).get? k = (e.get? k).or (d.get? k) := by
  rw [update, get?_assign, show e.entries.reverse.lookup k = e.reverse.get? k from rfl,
    get?_reverse]

/-- One more entry is one more assignment. -/
theorem ofList_append_singleton (es : List (α × β)) (a : α) (b : β) :
    ofList (es ++ [(a, b)]) = (ofList es).set a b := by
  rw [ofList, assign, List.foldl_append]
  rfl

/-- Looking up a list's dictionary finds the list's last entry for the key. -/
theorem get?_ofList (es : List (α × β)) (k : α) : (ofList es).get? k = es.reverse.lookup k := by
  rw [ofList, get?_assign, show (empty : Dict α β).get? k = none from rfl, Option.or_none]

theorem mem_of_get?_ofList {es : List (α × β)} {a : α} {b : β} (h : (ofList es).get? a = some b) :
    (a, b) ∈ es := by
  rw [get?_ofList] at h
  obtain ⟨before, after, hes, -⟩ := List.lookup_eq_some_iff.mp h
  rw [← List.mem_reverse, hes]
  exact List.mem_append_right before List.mem_cons_self

/-- Assigned entries are all that is left of a dictionary exactly when they have its keys. -/
theorem get?_assign_eq_get?_ofList_iff {d : Dict α β} {es : List (α × β)} :
    (∀ k, (d.assign es).get? k = (ofList es).get? k) ↔ ∀ k ∈ d.keys, k ∈ es.map Prod.fst := by
  have hlookup (k : α) : es.reverse.lookup k = none ↔ k ∉ es.map Prod.fst := by
    rw [lookup_eq_none_iff_not_mem, List.map_reverse, List.mem_reverse]
  simp only [get?_assign, get?_ofList, mem_keys_iff]
  refine forall_congr' fun k => ?_
  by_cases hk : k ∈ es.map Prod.fst
  · obtain ⟨b, hb⟩ := Option.ne_none_iff_exists'.mp fun h => (hlookup k).mp h hk
    simp [hb, hk]
  · rw [(hlookup k).mpr hk, Option.none_or, Option.eq_none_iff_forall_ne_some]
    simp only [hk, imp_false, not_exists]

/-- A list without repeated keys is looked up entry by entry. -/
theorem get?_ofList_eq_some_iff {es : List (α × β)} (h : (es.map Prod.fst).Nodup) {a : α} {b : β} :
    (ofList es).get? a = some b ↔ (a, b) ∈ es := by
  have hmem : (a, b) ∈ es.reverse ↔ (a, b) ∈ es := List.mem_reverse
  rw [get?_ofList, ← hmem]
  exact (mem_entries_iff (reverse ⟨es, h⟩)).symm

/-! ### Lookups with a default -/

/-- The value at a key, or the default. -/
def getD (d : Dict α β) (a : α) (default : β) : β := (d.get? a).getD default

theorem getD_set (d : Dict α β) (a : α) (b : β) (k : α) (default : β) :
    (d.set a b).getD k default = if k = a then b else d.getD k default := by
  rw [getD, get?_set]
  split <;> rfl

/-- The values are the lookups of the keys. -/
theorem values_eq_map_keys (d : Dict α β) (default : β) :
    d.values = d.keys.map fun a => d.getD a default := by
  rw [values, keys, List.map_map]
  refine List.map_congr_left fun e he => ?_
  show e.2 = (d.get? e.1).getD default
  rw [d.mem_entries_iff.mp he]
  rfl

/-- Mapped values, where the default is mapped to the other default. -/
theorem getD_mapValues {γ : Type*} (d : Dict α β) (f : α → β → γ) (a : α) (default : β) :
    (d.mapValues f).getD a (f a default) = f a (d.getD a default) := by
  rw [getD, getD, get?_mapValues]
  cases d.get? a <;> rfl

theorem getD_of_not_mem_keys {d : Dict α β} {a : α} (ha : a ∉ d.keys) (default : β) :
    d.getD a default = default := by
  rw [mem_keys_iff, not_exists] at ha
  rw [getD, Option.eq_none_iff_forall_ne_some.mpr ha]
  rfl

/-- Assign `b` to the key `a` unless it is present. -/
def setDefault (d : Dict α β) (a : α) (b : β) : Dict α β :=
  if (d.get? a).isSome then d else d.set a b

theorem mem_keys_setDefault {d : Dict α β} {a k : α} {b : β} :
    k ∈ (d.setDefault a b).keys ↔ k = a ∨ k ∈ d.keys := by
  rw [setDefault]
  split
  · next hsome =>
    refine (or_iff_right_of_imp ?_).symm
    rintro rfl
    exact d.mem_keys_iff.mpr (Option.isSome_iff_exists.mp hsome)
  · exact mem_keys_set

/-- Filling in a default does not change lookups with that default. -/
theorem getD_setDefault (d : Dict α β) (a : α) (default : β) (k : α) :
    (d.setDefault a default).getD k default = d.getD k default := by
  rw [setDefault]
  split
  · rfl
  · next hnone =>
    rw [getD_set]
    split
    · next hk =>
      rw [hk, getD, Option.not_isSome_iff_eq_none.mp hnone]
      rfl
    · rfl

/-- Combine the value at each key of `e`, in its order, with what `d` has there by then. -/
def mergeWith (f : β → β → β) (default : β) (d e : Dict α β) : Dict α β :=
  e.entries.foldl (fun d entry => d.set entry.1 (f (d.getD entry.1 default) entry.2)) d

theorem getD_foldl_combine (f : β → β → β) (default : β) (es : List (α × β))
    (hes : (es.map Prod.fst).Nodup) (d : Dict α β) (k : α) :
    (es.foldl (fun d entry => d.set entry.1 (f (d.getD entry.1 default) entry.2)) d).getD k
        default =
      (es.lookup k).elim (d.getD k default) (f (d.getD k default)) := by
  induction es generalizing d with
  | nil => rfl
  | cons e es ih =>
    obtain ⟨x, y⟩ := e
    rw [List.map_cons, List.nodup_cons] at hes
    rw [List.foldl_cons, ih hes.2, getD_set, lookup_cons_ite]
    by_cases hk : k = x
    · -- the key does not come up again
      rw [lookup_eq_none_iff_not_mem.mpr (hk ▸ hes.1), if_pos hk, if_pos hk, hk]
      rfl
    · rw [if_neg hk, if_neg hk]

/-- A merged dictionary, where combining with the default changes nothing. -/
theorem getD_mergeWith {f : β → β → β} {default : β} (d e : Dict α β) {k : α}
    (hk : f (d.getD k default) default = d.getD k default) :
    (mergeWith f default d e).getD k default = f (d.getD k default) (e.getD k default) := by
  rw [mergeWith, getD_foldl_combine f default e.entries e.nodup]
  show (e.get? k).elim _ _ = f _ ((e.get? k).getD default)
  cases e.get? k with
  | none => exact hk.symm
  | some b => rfl

/-- Sorted, the keys increase: none stands twice. -/
theorem pairwise_lt_mergeSort_keys {α β : Type*} [LinearOrder α] (d : Dict α β) :
    (d.keys.mergeSort fun a b => a ≤ b).Pairwise (· < ·) := by
  have hsorted : (d.keys.mergeSort fun a b => a ≤ b).Pairwise (· ≤ ·) :=
    List.pairwise_mergeSort' (· ≤ ·) d.keys
  have hnodup : (d.keys.mergeSort fun a b => a ≤ b).Nodup :=
    (List.mergeSort_perm _ _).nodup_iff.mpr d.nodup
  exact (hsorted.and hnodup).imp fun h => lt_of_le_of_ne h.1 h.2

end Dict

end Relay
