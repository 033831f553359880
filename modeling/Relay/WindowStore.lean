import Mathlib.Algebra.Order.Ring.Int
import Mathlib.Data.List.Sort
import Relay.Errors
import Relay.Lib.Dict
import Relay.Lib.Since

/-!
# The window store

A windowed aggregate keeps one value for a key and a window, and only as long as the window is
retained. Time only moves when something is put. A put moves the clock even if it is refused because
its window has expired, but windows are dropped only by a put that is accepted. So between the two a
value may be read that could no longer be written.

## Scope

The text on the span of the live windows is left out.

## Main definitions

* `WindowStore`, with `put`, `get` and `fetchRange`
* `windowStore`: the store as a component
* `LiveValue`: what is live, told from the calls alone

## Main results

* `windowStore_answers`: what every call of a run answers
-/

namespace Relay

/-- The store. The retention covers a window. -/
structure WindowStore where
  windowSize : ℤ
  retention : ℤ
  data : Dict (String × ℤ) ℤ := ∅
  now : ℤ := 0
  windowSize_le : windowSize ≤ retention

/-- The later of two times. -/
def laterOf (a b : ℤ) : ℤ := if a < b then b else a

/-- What a put into a window that has expired is refused with. -/
def expired (window now : ℤ) : RelayError :=
  .invalid (s!"window {window} is already expired at now {now}; " ++
    "it can no longer receive updates")

/-- What a lookup is refused with. -/
def noValue (key : String) (window : ℤ) : RelayError :=
  .missing s!"no live value for '{key}' in window {window}; either never set or retained away"

namespace WindowStore

/-- `_expire`. -/
def expire (store : WindowStore) : WindowStore :=
  { store with data := store.data.filter fun k _ => store.now - store.retention ≤ k.2 }

/-- `put`. -/
def put (store : WindowStore) (key : String) (window value now : ℤ) :
    Except RelayError Unit × WindowStore :=
  let store := { store with now := laterOf store.now now }
  if window < store.now - store.retention then
    (.error (expired window store.now), store)
  else (.ok (), expire { store with data := store.data.set (key, window) value })

/-- `get`. -/
def get (store : WindowStore) (key : String) (window : ℤ) : Except RelayError ℤ :=
  match store.data.get? (key, window) with
  | none => .error (noValue key window)
  | some value => .ok value

/-- `fetch_range`: windows with their values, sorted. -/
def fetchRange (store : WindowStore) (key : String) (low high : ℤ) : List (ℤ × ℤ) :=
  ((store.data.entries.filter fun e => e.1.1 = key ∧ low ≤ e.1.2 ∧ e.1.2 ≤ high).map fun e =>
    (e.1.2, e.2)).mergeSort fun a b => a.1 < b.1 ∨ a.1 = b.1 ∧ a.2 ≤ b.2

end WindowStore

/-- What is asked of the store. -/
inductive WindowCall where
  | put (key : String) (window value now : ℤ)
  | get (key : String) (window : ℤ)
  | fetchRange (key : String) (low high : ℤ)
  deriving DecidableEq

/-- What the store answers. -/
inductive WindowAnswer where
  | put (answer : Except RelayError Unit)
  | get (answer : Except RelayError ℤ)
  | fetchRange (pairs : List (ℤ × ℤ))

/-- The store as a component. -/
def windowStore : Machine WindowStore WindowCall WindowAnswer where
  step store
    | .put key window value now =>
      (.put (store.put key window value now).1, (store.put key window value now).2)
    | .get key window => (.get (store.get key window), store)
    | .fetchRange key low high => (.fetchRange (store.fetchRange key low high), store)

/-! ## What the calls say -/

/-- The clock after some events: no put moves it back. -/
def clockOf (events : List (WindowCall × WindowAnswer)) : ℤ :=
  events.foldl (fun clock e =>
    match e.1 with
    | .put _ _ _ now => laterOf clock now
    | _ => clock) 0

/-- The event is an accepted put of a value for the key and the window. -/
def Written (key : String) (window value : ℤ) (_past : List (WindowCall × WindowAnswer))
    (e : WindowCall × WindowAnswer) : Prop :=
  ∃ now, e = (.put key window value now, .put (.ok ()))

/-- If the event is an accepted put, then it is not for the same key and window, and the window was
still retained. -/
def Spared (retention : ℤ) (key : String) (window : ℤ)
    (past : List (WindowCall × WindowAnswer)) (e : WindowCall × WindowAnswer) : Prop :=
  ∀ k w v now, e = (.put k w v now, .put (.ok ())) →
    (key, window) ≠ (k, w) ∧ clockOf (past ++ [e]) - retention ≤ window

/-- The value was the last to be put for the key and the window, and no put that was accepted since
found the window expired. -/
def LiveValue (retention : ℤ) (key : String) (window value : ℤ)
    (past : List (WindowCall × WindowAnswer)) : Prop :=
  Since (Spared retention key window) (Written key window value) past

/-- What is answered after some events. -/
def WindowAnswers (retention : ℤ) (past : List (WindowCall × WindowAnswer)) :
    WindowCall × WindowAnswer → Prop
  | (.put _ window _ now, answer) =>
    answer = .put (if window < laterOf (clockOf past) now - retention then
      .error (expired window (laterOf (clockOf past) now))
      else .ok ())
  | (.get key window, answer) =>
    (∀ value, answer = .get (.ok value) ↔ LiveValue retention key window value past) ∧
      ((∀ value, ¬ LiveValue retention key window value past) →
        answer = .get (.error (noValue key window)))
  | (.fetchRange key low high, answer) =>
    ∃ pairs, answer = .fetchRange pairs ∧ pairs.Pairwise (fun a b => a.1 < b.1) ∧
      ∀ window value, (window, value) ∈ pairs ↔
        low ≤ window ∧ window ≤ high ∧ LiveValue retention key window value past

theorem clockOf_append_singleton (events : List (WindowCall × WindowAnswer))
    (e : WindowCall × WindowAnswer) : clockOf (events ++ [e]) =
      match e.1 with
      | .put _ _ _ now => laterOf (clockOf events) now
      | _ => clockOf events := by
  rw [clockOf, List.foldl_append]
  rfl

/-- The windows of a range come in ascending order, each with its value. -/
theorem fetchRange_spec (store : WindowStore) (key : String) (low high : ℤ) :
    (store.fetchRange key low high).Pairwise (fun a b => a.1 < b.1) ∧
      ∀ window value, (window, value) ∈ store.fetchRange key low high ↔
        low ≤ window ∧ window ≤ high ∧ store.data.get? (key, window) = some value := by
  have hmem : ∀ window value, (window, value) ∈ store.fetchRange key low high ↔
      low ≤ window ∧ window ≤ high ∧ store.data.get? (key, window) = some value := by
    intro window value
    rw [WindowStore.fetchRange, List.mem_mergeSort, List.mem_map]
    constructor
    · rintro ⟨⟨⟨k, w⟩, v⟩, he, heq⟩
      obtain ⟨rfl, rfl⟩ := Prod.mk.inj heq
      obtain ⟨hentry, hrange⟩ := List.mem_filter.mp he
      obtain ⟨rfl, hlow, hhigh⟩ := of_decide_eq_true hrange
      exact ⟨hlow, hhigh, store.data.mem_entries_iff.mp hentry⟩
    · rintro ⟨hlow, hhigh, hget⟩
      refine ⟨((key, window), value), List.mem_filter.mpr ⟨?_, ?_⟩, rfl⟩
      · exact store.data.mem_entries_iff.mpr hget
      · exact decide_eq_true ⟨rfl, hlow, hhigh⟩
  refine ⟨?_, hmem⟩
  have hsorted : (store.fetchRange key low high).Pairwise
      fun a b => a.1 < b.1 ∨ a.1 = b.1 ∧ a.2 ≤ b.2 := by
    refine (List.pairwise_mergeSort (fun a b c hab hbc => ?_) (fun a b => ?_) _).imp
      of_decide_eq_true
    · have hab := of_decide_eq_true hab
      have hbc := of_decide_eq_true hbc
      exact decide_eq_true (by omega)
    · rw [Bool.or_eq_true, decide_eq_true_eq, decide_eq_true_eq]
      omega
  have hnodup : (store.fetchRange key low high).Nodup := by
    refine (List.mergeSort_perm _ _).nodup_iff.mpr ((List.Nodup.of_map _ store.data.nodup).filter
      _ |>.map_on ?_)
    rintro e he e' he' heq
    obtain ⟨hkey, -⟩ := of_decide_eq_true (List.mem_filter.mp he).2
    obtain ⟨hkey', -⟩ := of_decide_eq_true (List.mem_filter.mp he').2
    obtain ⟨hwindow, hvalue⟩ := Prod.mk.inj heq
    exact Prod.ext (Prod.ext (hkey.trans hkey'.symm) hwindow) hvalue
  refine (hsorted.and hnodup).imp_of_mem fun {a b} ha hb hab => ?_
  obtain ⟨wa, va⟩ := a
  obtain ⟨wb, vb⟩ := b
  rcases hab.1 with hlt | ⟨rfl, -⟩
  · exact hlt
  · have hva := ((hmem _ _).mp ha).2.2
    rw [((hmem _ _).mp hb).2.2] at hva
    exact absurd (by rw [Option.some.inj hva]) hab.2

section Runs

variable {store : WindowStore}

/-- A lookup after a put that is accepted. -/
theorem get?_put {key : String} {window value now : ℤ}
    (h : ¬ window < laterOf store.now now - store.retention) (k : String) (w v : ℤ) :
    (store.put key window value now).2.data.get? (k, w) = some v ↔
      (k, w) = (key, window) ∧ v = value ∨
        store.data.get? (k, w) = some v ∧ (k, w) ≠ (key, window) ∧
          laterOf store.now now - store.retention ≤ w := by
  rw [WindowStore.put]
  dsimp only
  rw [if_neg h, WindowStore.expire]
  dsimp only
  rw [Dict.get?_filter, Dict.get?_set, Option.filter_eq_some_iff, decide_eq_true_eq]
  by_cases hk : (k, w) = (key, window)
  · obtain ⟨rfl, rfl⟩ := Prod.mk.inj hk
    rw [if_pos rfl]
    simp [not_lt.mp h, eq_comm]
  · simp [hk]

theorem step_retention (store : WindowStore) (call : WindowCall) :
    (windowStore.step store call).2.retention = store.retention := by
  cases call with
  | put key window value now =>
    rw [windowStore]
    dsimp only [WindowStore.put]
    split <;> rfl
  | get key window => rfl
  | fetchRange key low high => rfl

/-- A store that nothing was put into. -/
def emptyStore (windowSize retention : ℤ) (h : windowSize ≤ retention) : WindowStore where
  windowSize := windowSize
  retention := retention
  windowSize_le := h

variable {windowSize retention : ℤ} {h : windowSize ≤ retention}

theorem final_retention (calls : List WindowCall) :
    (windowStore.final (emptyStore windowSize retention h) calls).retention = retention :=
  Machine.final_eq_of_step WindowStore.retention step_retention _ calls

theorem final_now (calls : List WindowCall) :
    (windowStore.final (emptyStore windowSize retention h) calls).now =
      clockOf (windowStore.trace (emptyStore windowSize retention h) calls) := by
  refine Machine.trace_always (P := fun past (store : WindowStore) => store.now = clockOf past) rfl
    ?_ calls
  intro past store call hnow
  rw [clockOf_append_singleton, ← hnow]
  cases call with
  | put key window value now =>
    rw [windowStore]
    dsimp only [WindowStore.put]
    split <;> rfl
  | get key window => rfl
  | fetchRange key low high => rfl

/-- What is not an accepted put keeps what is live. -/
theorem iff_written_or_spared {past : List (WindowCall × WindowAnswer)}
    {e : WindowCall × WindowAnswer} (he : ∀ k w v now, e ≠ (.put k w v now, .put (.ok ())))
    (retention : ℤ) (key : String) (window value : ℤ) (P : Prop) :
    P ↔ Written key window value past e ∨ P ∧ Spared retention key window past e := by
  refine ⟨fun hP => Or.inr ⟨hP, fun k w v now heq => absurd heq (he k w v now)⟩, ?_⟩
  rintro (⟨now, heq⟩ | ⟨hP, -⟩)
  · exact absurd heq (he _ _ _ _)
  · exact hP

/-- **What is in the store.** -/
theorem get?_final_iff (key : String) (window value : ℤ) (calls : List WindowCall) :
    (windowStore.final (emptyStore windowSize retention h) calls).data.get? (key, window) =
        some value ↔
      LiveValue retention key window value
        (windowStore.trace (emptyStore windowSize retention h) calls) := by
  refine Machine.iff_since (P := fun store : WindowStore =>
    store.data.get? (key, window) = some value) (fun hget => by cases hget)
    (fun calls call => ?_) calls
  have hnow := final_now (h := h) calls
  have hretention := final_retention (h := h) calls
  revert hnow hretention
  generalize windowStore.final (emptyStore windowSize retention h) calls = store
  generalize windowStore.trace (emptyStore windowSize retention h) calls = past
  intro hnow hretention
  cases call with
  | put k w v now =>
    by_cases hexpired : w < laterOf store.now now - store.retention
    · -- nothing but the clock changes
      obtain ⟨error, hput⟩ : ∃ error, store.put k w v now =
          (.error error, { store with now := laterOf store.now now }) := ⟨_, if_pos hexpired⟩
      rw [windowStore]
      dsimp only
      rw [hput]
      exact iff_written_or_spared (fun k' w' v' now' heq => by cases heq) _ _ _ _ _
    · have hanswer : (store.put k w v now).1 = .ok () := by
        rw [WindowStore.put]
        dsimp only
        rw [if_neg hexpired]
      have hclock : clockOf (past ++ [(.put k w v now, .put (.ok ()))]) =
          laterOf store.now now := by
        rw [clockOf_append_singleton, ← hnow]
      rw [windowStore]
      dsimp only
      rw [hanswer, get?_put hexpired]
      refine or_congr ⟨?_, ?_⟩ (and_congr_right fun _ => ?_)
      · rintro ⟨hk, rfl⟩
        obtain ⟨rfl, rfl⟩ := Prod.mk.inj hk
        exact ⟨now, rfl⟩
      · rintro ⟨now', heq⟩
        obtain ⟨rfl, rfl, rfl, -⟩ := WindowCall.put.inj (Prod.mk.inj heq).1
        exact ⟨rfl, rfl⟩
      · rw [← hretention, Spared, hclock]
        constructor
        · rintro ⟨hk, hle⟩ k' w' v' now' heq
          obtain ⟨rfl, rfl, -⟩ := WindowCall.put.inj (Prod.mk.inj heq).1
          exact ⟨hk, hle⟩
        · exact fun hspared => hspared k w v now rfl
  | get k w => exact iff_written_or_spared (fun k' w' v' now' heq => by cases heq) _ _ _ _ _
  | fetchRange k low high =>
    exact iff_written_or_spared (fun k' w' v' now' heq => by cases heq) _ _ _ _ _

/-- **The window store.** A put is refused if its window has expired by the latest time given so
far. A lookup finds the value that was put last, unless a put that was accepted since found the
window expired, and a range has all values that a lookup would find. -/
theorem windowStore_answers (h : windowSize ≤ retention) (calls : List WindowCall) :
    Justified (WindowAnswers retention)
      (windowStore.trace (emptyStore windowSize retention h) calls) := by
  refine Machine.justified_trace (fun calls call => ?_) calls
  have hnow := final_now (h := h) calls
  have hretention := final_retention (h := h) calls
  have hget := fun key window value => get?_final_iff (h := h) key window value calls
  revert hnow hretention hget
  generalize windowStore.final (emptyStore windowSize retention h) calls = store
  generalize windowStore.trace (emptyStore windowSize retention h) calls = past
  intro hnow hretention hget
  cases call with
  | put key window value now =>
    refine congrArg WindowAnswer.put ?_
    rw [← hnow, ← hretention, WindowStore.put]
    dsimp only
    split <;> rfl
  | get key window =>
    have hlookup : store.get key window =
        ((store.data.get? (key, window)).map Except.ok).getD (.error (noValue key window)) := by
      rw [WindowStore.get]
      cases store.data.get? (key, window) <;> rfl
    refine ⟨fun value => ?_, fun hnone => ?_⟩
    · rw [← hget key window value]
      change WindowAnswer.get (store.get key window) = _ ↔ _
      rw [WindowAnswer.get.injEq, hlookup]
      cases store.data.get? (key, window) with
      | none => exact iff_of_false nofun nofun
      | some stored => simp
    · have hmissing : store.data.get? (key, window) = none :=
        Option.eq_none_iff_forall_ne_some.mpr fun value hvalue =>
          hnone value ((hget key window value).mp hvalue)
      change WindowAnswer.get (store.get key window) = _
      rw [hlookup, hmissing]
      rfl
  | fetchRange key low high =>
    obtain ⟨hsorted, hmem⟩ := fetchRange_spec store key low high
    refine ⟨_, rfl, hsorted, fun window value => ?_⟩
    rw [hmem, hget]

theorem windowStore_answers_expired :
    Justified (WindowAnswers 10) (windowStore.trace (emptyStore 5 10 (by decide))
      [.put "a" 0 1 3, .put "a" 0 2 20, .get "a" 0]) :=
  windowStore_answers (by decide) _

end Runs

end Relay
