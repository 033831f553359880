import Mathlib.Algebra.Order.Ring.Int
import Relay.Errors
import Relay.Lib.Dict
import Relay.Lib.Machine
import Relay.Lib.Recency

/-!
# The LRU cache

A bounded cache on an insertion-ordered dictionary. An access moves its key to the end, a put of a
new key that overflows drops the first entry. A get of an absent key is a miss and touches nothing.

The dictionary only knows the keys that are still there. What is proved is about the whole history:
the cache holds those keys that are most recent in the order of all touches, as many as its capacity
allows, and so a get finds what was last put unless as many other keys have been touched since.

## Scope

The hit rate is left out, which is a rounded percentage in a text. The hits and misses it is made of
are counted.

## Main definitions

* `LruCache`, with `get`, `put` and `keysMruFirst`
* `lruCache`: the cache as a component

## Main results

* `keysMruFirst_eq`: the keys of the cache are the most recent ones of the run
* `get_answers`: when a get finds a value, and which
-/

namespace Relay

namespace Dict

variable {α β : Type*}

/-- `popitem(last=False)`, without the entry. -/
def popFirst (d : Dict α β) : Dict α β where
  entries := d.entries.tail
  nodup := by
    rw [List.map_tail]
    exact d.nodup.sublist (List.tail_sublist _)

theorem keys_popFirst (d : Dict α β) : d.popFirst.keys = d.keys.tail := List.map_tail

variable [DecidableEq α]

/-- `move_to_end`, where the key is present. -/
def moveToEnd (d : Dict α β) (a : α) : Dict α β :=
  match d.get? a with
  | some b => (d.erase a).set a b
  | none => d

theorem keys_set (d : Dict α β) (a : α) (b : β) :
    (d.set a b).keys = if a ∈ d.keys then d.keys else d.keys ++ [a] :=
  map_fst_setEntries a b d.entries

theorem keys_set_ne_nil (d : Dict α β) (a : α) (b : β) : (d.set a b).keys ≠ [] :=
  List.ne_nil_of_mem (mem_keys_set.mpr (Or.inl rfl))

theorem keys_erase (d : Dict α β) (a : α) : (d.erase a).keys = d.keys.filter (· ≠ a) := by
  rw [keys, keys, List.filter_map]
  refine congrArg (List.map Prod.fst) (List.filter_congr fun e _ => ?_)
  simp

/-- The key comes last, behind the others in their order. -/
theorem keys_moveToEnd {d : Dict α β} {a : α} (ha : a ∈ d.keys) :
    (d.moveToEnd a).keys = d.keys.filter (· ≠ a) ++ [a] := by
  obtain ⟨b, hb⟩ := d.mem_keys_iff.mp ha
  have hnot : a ∉ d.keys.filter (· ≠ a) := fun hmem => by simpa using (List.mem_filter.mp hmem).2
  rw [moveToEnd, hb, keys_set, keys_erase, if_neg hnot]

/-- Moving a key changes no lookup. -/
theorem get?_moveToEnd (d : Dict α β) (a k : α) : (d.moveToEnd a).get? k = d.get? k := by
  rw [moveToEnd]
  split
  · next b hb =>
    rw [get?_set, get?_erase]
    split
    · next hk => rw [hk, hb]
    · rfl
  · rfl

/-- What is found without the first entry is found with it. -/
theorem get?_of_get?_popFirst {d : Dict α β} {k : α} {b : β} (h : d.popFirst.get? k = some b) :
    d.get? k = some b :=
  d.mem_entries_iff.mp (List.mem_of_mem_tail (d.popFirst.mem_entries_iff.mpr h))

end Dict

/-- The cache. The constructor refuses other capacities. -/
structure LruCache where
  capacity : ℤ
  store : Dict String ℤ := ∅
  hits : ℕ := 0
  misses : ℕ := 0
  capacity_pos : 1 ≤ capacity

namespace LruCache

/-- `get`. -/
def get (cache : LruCache) (key : String) : Option ℤ × LruCache :=
  match cache.store.get? key with
  | none => (none, { cache with misses := cache.misses + 1 })
  | some value =>
    (some value, { cache with hits := cache.hits + 1, store := cache.store.moveToEnd key })

/-- `put`. -/
def put (cache : LruCache) (key : String) (value : ℤ) : String × LruCache :=
  if (cache.store.get? key).isSome then
    (s!"updated '{key}'", { cache with store := (cache.store.moveToEnd key).set key value })
  else
    let store := cache.store.set key value
    if (store.entries.length : ℤ) > cache.capacity then
      let evicted := store.keys.head (cache.store.keys_set_ne_nil key value)
      (s!"put '{key}', evicted least-recent '{evicted}'", { cache with store := store.popFirst })
    else (s!"put '{key}'", { cache with store := store })

/-- `keys_mru_first`. -/
def keysMruFirst (cache : LruCache) : List String := cache.store.keys.reverse

end LruCache

/-- What is asked of the cache. -/
inductive CacheCall where
  | get (key : String)
  | put (key : String) (value : ℤ)

/-- What the cache answers. -/
inductive CacheAnswer where
  | got (value : Option ℤ)
  | putDone (message : String)

/-- The cache as a component. -/
def lruCache : Machine LruCache CacheCall CacheAnswer where
  step cache
    | .get key => (cache.get key).map .got id
    | .put key value => (cache.put key value).map .putDone id

/-- The key that an event touches: a put does, and a get that hits. -/
def touchedBy : CacheCall × CacheAnswer → Option String
  | (.put key _, _) => some key
  | (.get key, .got (some _)) => some key
  | _ => none

/-- The keys touched in a run, the latest first. -/
def touches (past : List (CacheCall × CacheAnswer)) : List String :=
  (past.filterMap touchedBy).reverse

/-- The value that an event puts under a key, if it puts one there. -/
def putBy (key : String) : CacheCall × CacheAnswer → Option ℤ
  | (.put key' value, _) => if key' = key then some value else none
  | _ => none

/-- The value last put under a key. -/
def lastPut (key : String) (past : List (CacheCall × CacheAnswer)) : Option ℤ :=
  (past.filterMap (putBy key)).getLast?

theorem touches_append_singleton (past : List (CacheCall × CacheAnswer))
    (e : CacheCall × CacheAnswer) :
    touches (past ++ [e]) = (touchedBy e).toList ++ touches past := by
  rw [touches, List.filterMap_append, List.reverse_append, touches]
  cases h : touchedBy e with
  | none => rw [List.filterMap_cons_none h]; rfl
  | some key => rw [List.filterMap_cons_some h]; rfl

theorem lastPut_append_singleton (key : String) (past : List (CacheCall × CacheAnswer))
    (e : CacheCall × CacheAnswer) :
    lastPut key (past ++ [e]) = (putBy key e).or (lastPut key past) := by
  rw [lastPut, List.filterMap_append, List.getLast?_append, lastPut]
  cases h : putBy key e with
  | none => rw [List.filterMap_cons_none h]; rfl
  | some value => rw [List.filterMap_cons_some h]; rfl

/-! ### What a call does to the order -/

namespace LruCache

variable {cache : LruCache} {key : String}

/-- An access brings its key to the front. -/
theorem keysMruFirst_moveToEnd (h : key ∈ cache.store.keys) :
    (cache.store.moveToEnd key).keys.reverse = key :: cache.keysMruFirst.filter (· ≠ key) := by
  rw [Dict.keys_moveToEnd h, List.reverse_append, List.reverse_singleton, List.singleton_append,
    keysMruFirst, List.filter_reverse]

/-- A put of a key that is there changes the order as an access does. -/
theorem put_of_mem (h : key ∈ cache.store.keys) (value : ℤ) :
    (cache.put key value).2.keysMruFirst = key :: cache.keysMruFirst.filter (· ≠ key) := by
  have hsome : (cache.store.get? key).isSome :=
    Option.isSome_iff_exists.mpr (cache.store.mem_keys_iff.mp h)
  have hmoved : key ∈ (cache.store.moveToEnd key).keys := by
    rw [Dict.keys_moveToEnd h]
    exact List.mem_append_right _ (List.mem_singleton.mpr rfl)
  rw [put, if_pos hsome, keysMruFirst, Dict.keys_set, if_pos hmoved, keysMruFirst_moveToEnd h]

/-- A put of a new key brings it to the front, and drops the last key if there is no room. -/
theorem put_of_not_mem (h : key ∉ cache.store.keys) (value : ℤ) :
    (cache.put key value).2.keysMruFirst =
      if ((cache.keysMruFirst.length + 1 : ℕ) : ℤ) > cache.capacity then
        (key :: cache.keysMruFirst).dropLast
      else key :: cache.keysMruFirst := by
  have hnone : ¬ (cache.store.get? key).isSome := by
    rw [Option.isSome_iff_exists, ← Dict.mem_keys_iff]
    exact h
  have hkeys : (cache.store.set key value).keys = cache.store.keys ++ [key] := by
    rw [Dict.keys_set, if_neg h]
  have hlength : (cache.store.set key value).entries.length = cache.keysMruFirst.length + 1 := by
    rw [← List.length_map (f := Prod.fst)]
    show (cache.store.set key value).keys.length = _
    rw [hkeys, List.length_append, keysMruFirst, List.length_reverse]
    rfl
  rw [put, if_neg hnone]
  simp only [hlength]
  split
  · rw [keysMruFirst, Dict.keys_popFirst, hkeys, ← List.dropLast_reverse, List.reverse_append]
    rfl
  · rw [keysMruFirst, hkeys, List.reverse_append]
    rfl

theorem capacity_step (cache : LruCache) (call : CacheCall) :
    (lruCache.step cache call).2.capacity = cache.capacity := by
  cases call with
  | get key =>
    show (cache.get key).2.capacity = _
    rw [get]
    split <;> rfl
  | put key value =>
    show (cache.put key value).2.capacity = _
    rw [put]
    split
    · rfl
    · dsimp only
      split <;> rfl

end LruCache

open Recency

/-- The cache holds the most recent keys of the run, with what was last put under them. -/
structure HoldsRecent (past : List (CacheCall × CacheAnswer)) (cache : LruCache) : Prop where
  keys : cache.keysMruFirst = (recent (touches past)).take cache.capacity.toNat
  values : ∀ key value, cache.store.get? key = some value → lastPut key past = some value

namespace HoldsRecent

variable {past : List (CacheCall × CacheAnswer)} {cache : LruCache} {key : String}

/-- After a touch of a key, the most recent keys are computed from those of the cache. -/
theorem take_recent_touch (h : HoldsRecent past cache) (key : String) :
    (recent (key :: touches past)).take cache.capacity.toNat =
      key :: if key ∈ cache.store.keys then cache.keysMruFirst.filter (· ≠ key)
        else cache.keysMruFirst.take (cache.capacity.toNat - 1) := by
  have hpos := cache.capacity_pos
  have hkey : key ∈ cache.store.keys ↔ key ∈ cache.keysMruFirst := List.mem_reverse.symm
  obtain ⟨n, hn⟩ : ∃ n, cache.capacity.toNat = n + 1 := ⟨cache.capacity.toNat - 1, by omega⟩
  have hkeys := h.keys
  rw [hn] at hkeys
  simp only [hkey, hn, Nat.add_sub_cancel, hkeys]
  exact take_recent_cons (touches past) key n

theorem length_le (h : HoldsRecent past cache) :
    (cache.keysMruFirst.length : ℤ) ≤ cache.capacity := by
  have hpos := cache.capacity_pos
  rw [h.keys, List.length_take]
  omega

theorem get (h : HoldsRecent past cache) (key : String) :
    HoldsRecent (past ++ [(.get key, .got (cache.get key).1)]) (cache.get key).2 := by
  have hvalues (k : String) (answer : Option ℤ) :
      lastPut k (past ++ [(.get key, .got answer)]) = lastPut k past := by
    rw [lastPut_append_singleton]
    rfl
  rw [LruCache.get]
  split
  · refine ⟨?_, fun k value hk => (hvalues k _).trans (h.values k value hk)⟩
    rw [touches_append_singleton]
    exact h.keys
  · next value hvalue =>
    have hmem := cache.store.mem_keys_iff.mpr ⟨value, hvalue⟩
    refine ⟨?_, fun k value' hk => (hvalues k _).trans (h.values k value' ?_)⟩
    · rw [touches_append_singleton]
      show (cache.store.moveToEnd key).keys.reverse = (recent (key :: touches past)).take _
      rw [LruCache.keysMruFirst_moveToEnd hmem, h.take_recent_touch, if_pos hmem]
    · exact (cache.store.get?_moveToEnd key k).symm.trans hk

theorem put (h : HoldsRecent past cache) (key : String) (value : ℤ) :
    HoldsRecent (past ++ [(.put key value, .putDone (cache.put key value).1)])
      (cache.put key value).2 := by
  constructor
  · rw [touches_append_singleton,
      show (cache.put key value).2.capacity = cache.capacity from
        cache.capacity_step (.put key value)]
    show _ = (recent (key :: touches past)).take _
    rw [h.take_recent_touch]
    by_cases hmem : key ∈ cache.store.keys
    · rw [if_pos hmem, LruCache.put_of_mem hmem]
    · have hpos := cache.capacity_pos
      have hle := h.length_le
      rw [if_neg hmem, LruCache.put_of_not_mem hmem]
      split
      · have hfull : cache.keysMruFirst.length = cache.capacity.toNat := by omega
        rw [List.dropLast_eq_take, List.length_cons, Nat.add_sub_cancel, hfull,
          show cache.capacity.toNat = cache.capacity.toNat - 1 + 1 by omega, List.take_succ_cons,
          Nat.add_sub_cancel]
      · rw [List.take_of_length_le (by omega)]
  · intro k found hfound
    rw [lastPut_append_singleton, putBy]
    have hset : ∀ store : Dict String ℤ, (∀ k, store.get? k = cache.store.get? k) →
        (store.set key value).get? k = some found →
          (if key = k then some value else none).or (lastPut k past) = some found := by
      intro store hstore hget
      rw [Dict.get?_set] at hget
      split at hget
      · next hk => rw [if_pos hk.symm, Option.some_or, hget]
      · next hk =>
        rw [if_neg (Ne.symm hk), Option.none_or]
        exact h.values k found ((hstore k).symm.trans hget)
    rw [LruCache.put] at hfound
    split at hfound
    · exact hset _ (cache.store.get?_moveToEnd key) hfound
    · dsimp only at hfound
      split at hfound
      · exact hset _ (fun _ => rfl) (Dict.get?_of_get?_popFirst hfound)
      · exact hset _ (fun _ => rfl) hfound

end HoldsRecent

theorem holdsRecent_step (past : List (CacheCall × CacheAnswer)) (cache : LruCache)
    (call : CacheCall) (h : HoldsRecent past cache) :
    HoldsRecent (past ++ [(call, (lruCache.step cache call).1)]) (lruCache.step cache call).2 := by
  cases call with
  | get key => exact h.get key
  | put key value => exact h.put key value

/-- A cache that nothing was put into. -/
def freshCache (capacity : ℤ) (h : 1 ≤ capacity) : LruCache := { capacity, capacity_pos := h }

theorem holdsRecent_trace {capacity : ℤ} (hpos : 1 ≤ capacity) (calls : List CacheCall) :
    HoldsRecent (lruCache.trace (freshCache capacity hpos) calls)
      (lruCache.final (freshCache capacity hpos) calls) :=
  Machine.trace_always (P := HoldsRecent)
    ⟨by simp [touches, recent, freshCache, LruCache.keysMruFirst, Dict.keys]; rfl,
      fun key value hget => by simp [freshCache] at hget⟩ holdsRecent_step calls

/-- A key was touched in a run, and fewer than `capacity` others have been touched since. -/
def RecentIn (capacity : ℤ) (past : List (CacheCall × CacheAnswer)) (key : String) : Prop :=
  ∃ newer older, touches past = newer ++ key :: older ∧ key ∉ newer ∧
    (newer.toFinset.card : ℤ) < capacity

/-- What the cache finds: what was last put under a key, if the key is recent. -/
theorem get?_eq_some_iff {past : List (CacheCall × CacheAnswer)} {cache : LruCache}
    (h : HoldsRecent past cache) {key : String} {value : ℤ} : cache.store.get? key = some value ↔
      RecentIn cache.capacity past key ∧ lastPut key past = some value := by
  have hpos := cache.capacity_pos
  have hmem : key ∈ cache.store.keys ↔ RecentIn cache.capacity past key := by
    rw [← List.mem_reverse]
    show key ∈ cache.keysMruFirst ↔ _
    rw [h.keys, mem_take_recent_iff, RecentIn]
    refine exists_congr fun newer => exists_congr fun older => ?_
    rw [show newer.toFinset.card < cache.capacity.toNat ↔
      (newer.toFinset.card : ℤ) < cache.capacity by omega]
  rw [← hmem, Dict.mem_keys_iff]
  constructor
  · exact fun hget => ⟨⟨value, hget⟩, h.values key value hget⟩
  · rintro ⟨⟨found, hfound⟩, hlast⟩
    rw [hfound, ← h.values key found hfound, hlast]

theorem capacity_final {capacity : ℤ} (hpos : 1 ≤ capacity) (calls : List CacheCall) :
    (lruCache.final (freshCache capacity hpos) calls).capacity = capacity :=
  Machine.final_eq_of_step LruCache.capacity LruCache.capacity_step _ calls

/-- **The keys of the cache.** They are the most recently touched keys of the run, in order of
recency, as many as the capacity allows. -/
theorem keysMruFirst_eq {capacity : ℤ} (hpos : 1 ≤ capacity) (calls : List CacheCall) :
    (lruCache.final (freshCache capacity hpos) calls).keysMruFirst =
      (recent (touches (lruCache.trace (freshCache capacity hpos) calls))).take capacity.toNat := by
  rw [(holdsRecent_trace hpos calls).keys, capacity_final]

/-- What a get is answered, given the events before. -/
def FindsRecent (capacity : ℤ) (past : List (CacheCall × CacheAnswer))
    (e : CacheCall × CacheAnswer) : Prop :=
  ∀ key answer, e = (.get key, .got answer) → ∀ value,
    answer = some value ↔ RecentIn capacity past key ∧ lastPut key past = some value

theorem findsRecent_step {past : List (CacheCall × CacheAnswer)} {cache : LruCache}
    (h : HoldsRecent past cache) (call : CacheCall) :
    FindsRecent cache.capacity past (call, (lruCache.step cache call).1) := by
  rintro key answer heq value
  obtain ⟨rfl, hanswer⟩ := Prod.mk.inj heq
  have hanswer : (cache.get key).1 = answer := CacheAnswer.got.inj hanswer
  have hget : (cache.get key).1 = cache.store.get? key := by
    rw [LruCache.get]
    split
    · next hnone => exact hnone.symm
    · next hsome => exact hsome.symm
  rw [← hanswer, hget, get?_eq_some_iff h]

/-- **When a get hits.** In every run a get finds a value exactly when its key was touched and fewer
other keys than the capacity have been touched since, and the value is what was last put under the
key. -/
theorem get_answers {capacity : ℤ} (hpos : 1 ≤ capacity) (calls : List CacheCall) :
    Justified (FindsRecent capacity) (lruCache.trace (freshCache capacity hpos) calls) :=
  (Machine.trace_always
    (P := fun past (cache : LruCache) =>
      cache.capacity = capacity ∧ HoldsRecent past cache ∧ Justified (FindsRecent capacity) past)
    ⟨rfl, holdsRecent_trace hpos [], justified_nil _⟩
    (fun past cache call h => ⟨(cache.capacity_step call).trans h.1,
      holdsRecent_step past cache call h.2.1,
      justified_append_singleton.mpr ⟨h.2.2, h.1 ▸ findsRecent_step h.2.1 call⟩⟩) calls).2.2

/-- With room for two keys, an access keeps `a`, and the put of `c` drops `b`. -/
theorem get_answers_two :
    Justified (FindsRecent 2) (lruCache.trace (freshCache 2 (by decide))
      [.put "a" 1, .put "b" 2, .get "a", .put "c" 3, .get "b", .get "a"]) ∧
      (lruCache.final (freshCache 2 (by decide))
        [.put "a" 1, .put "b" 2, .get "a", .put "c" 3, .get "b", .get "a"]).keysMruFirst =
          ["a", "c"] :=
  ⟨get_answers (by decide) _, by decide⟩

end Relay
