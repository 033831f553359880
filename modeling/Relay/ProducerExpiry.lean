import Mathlib.Algebra.Order.Ring.Int
import Mathlib.Data.List.TakeWhile
import Relay.Errors
import Relay.Lib.Dict
import Relay.Lib.Machine

/-!
# Forgetting idle producers

What a broker remembers of a producer to notice duplicates takes memory, so a producer that has been
idle for the timeout is forgotten. One with an open transaction must not be: its transaction would
be left without a coordinator that remembers it, so the call is refused.

The refusal comes out of the loop that forgets. Producers are gone through in the order they are
tracked in, and those that were forgotten before the refusal stay forgotten, while the caller gets
an error and not their ids. The call does all or nothing exactly when no idle producer comes before
the first one with an open transaction.

## Scope

The notes on whether a producer may resume, and on how many are idle, are left out.

## Main definitions

* `ProducerState`, `ProducerRegistry`, with `track` and `expireIdle`
* `ProducerRegistry.Atomic`: all idle producers are forgotten, or none

## Main results

* `expireIdle_atomic_iff`: exactly when the call is atomic
-/

namespace Relay

/-- What is remembered of a producer. -/
structure ProducerState where
  producerId : ℤ
  lastSeq : ℤ
  idleTicks : ℤ
  inTransaction : Bool := false
  deriving DecidableEq

/-- The producers that are tracked, by their ids. -/
structure ProducerRegistry where
  timeoutTicks : ℤ
  states : Dict ℤ ProducerState := ∅
  timeoutTicks_pos : 1 ≤ timeoutTicks

namespace ProducerRegistry

/-- `track`. -/
def track (registry : ProducerRegistry) (state : ProducerState) : ProducerRegistry :=
  { registry with states := registry.states.set state.producerId state }

/-- The loop of `expire_idle`, over the entries there were at the start. -/
def expireLoop (timeoutTicks : ℤ) : List (ℤ × ProducerState) → Dict ℤ ProducerState → List ℤ →
    Except RelayError (List ℤ) × Dict ℤ ProducerState
  | [], states, expired => (.ok expired, states)
  | (pid, st) :: rest, states, expired =>
    if st.idleTicks < timeoutTicks then expireLoop timeoutTicks rest states expired
    else if st.inTransaction then
      (.error (.invalid (s!"producer {pid} is idle past the timeout but "
        ++ "has an open transaction; expiring it would "
        ++ "strand the transaction with no memory of it")), states)
    else expireLoop timeoutTicks rest (states.erase pid) (expired ++ [pid])

/-- `expire_idle`. -/
def expireIdle (registry : ProducerRegistry) : Except RelayError (List ℤ) × ProducerRegistry :=
  let outcome := expireLoop registry.timeoutTicks registry.states.entries registry.states []
  (outcome.1, { registry with states := outcome.2 })

/-- The producers that have been idle for the timeout. -/
def idle (timeoutTicks : ℤ) (entries : List (ℤ × ProducerState)) : List (ℤ × ProducerState) :=
  entries.filter fun e => timeoutTicks ≤ e.2.idleTicks

/-- The idle producers before the first that has an open transaction. -/
def free (timeoutTicks : ℤ) (entries : List (ℤ × ProducerState)) : List (ℤ × ProducerState) :=
  (idle timeoutTicks entries).takeWhile fun e => !e.2.inTransaction

/-- Either the idle producers are returned and they are the ones that are gone, or one of them has
an open transaction, the call is refused, and nothing has changed. -/
def Atomic (registry : ProducerRegistry) : Prop :=
  (registry.expireIdle.1 =
      .ok ((idle registry.timeoutTicks registry.states.entries).map Prod.fst) ∧
    ∀ pid, registry.expireIdle.2.states.get? pid =
      (registry.states.get? pid).filter fun st => st.idleTicks < registry.timeoutTicks) ∨
  (∃ e, registry.expireIdle.1 = .error e) ∧
    (∃ pid st, registry.states.get? pid = some st ∧ registry.timeoutTicks ≤ st.idleTicks ∧
      st.inTransaction) ∧
    registry.expireIdle.2 = registry

variable (timeoutTicks : ℤ) (entries : List (ℤ × ProducerState)) (states : Dict ℤ ProducerState)
  (expired : List ℤ)

variable {timeoutTicks} in
theorem idle_cons_of_not_lt (pid : ℤ) {st : ProducerState} (hlive : ¬ st.idleTicks < timeoutTicks) :
    idle timeoutTicks ((pid, st) :: entries) = (pid, st) :: idle timeoutTicks entries :=
  List.filter_cons_of_pos (by simpa using hlive)

/-- Whatever the outcome, the producers before the first with an open transaction are gone. -/
theorem snd_expireLoop :
    (expireLoop timeoutTicks entries states expired).2 =
      (free timeoutTicks entries).foldl (fun states e => states.erase e.1) states := by
  induction entries generalizing states expired with
  | nil => rfl
  | cons e entries ih =>
    obtain ⟨pid, st⟩ := e
    rw [expireLoop]
    by_cases hlive : st.idleTicks < timeoutTicks
    · rw [if_pos hlive, ih, free, free, idle, idle, List.filter_cons_of_neg (by simpa using hlive)]
    · rw [if_neg hlive, free, idle_cons_of_not_lt entries pid hlive]
      split
      · next hopen => rw [List.takeWhile_cons_of_neg (by simpa using hopen), List.foldl_nil]
      · next hopen =>
        rw [ih, List.takeWhile_cons_of_pos (by simpa using hopen), List.foldl_cons, free]

/-- The call succeeds if no idle producer has an open transaction, and else it is refused. -/
theorem fst_expireLoop :
    ((∀ e ∈ idle timeoutTicks entries, e.2.inTransaction = false) ∧
        (expireLoop timeoutTicks entries states expired).1 =
          .ok (expired ++ (idle timeoutTicks entries).map Prod.fst)) ∨
      (∃ e ∈ idle timeoutTicks entries, e.2.inTransaction = true) ∧
        ∃ error, (expireLoop timeoutTicks entries states expired).1 = .error error := by
  induction entries generalizing states expired with
  | nil => exact .inl ⟨fun e he => (by cases he), congrArg _ (List.append_nil expired).symm⟩
  | cons e entries ih =>
    obtain ⟨pid, st⟩ := e
    rw [expireLoop]
    by_cases hlive : st.idleTicks < timeoutTicks
    · rw [if_pos hlive, idle, List.filter_cons_of_neg (by simpa using hlive)]
      exact ih states expired
    · rw [if_neg hlive, idle_cons_of_not_lt entries pid hlive]
      split
      · next hopen => exact .inr ⟨⟨_, List.mem_cons_self, hopen⟩, _, rfl⟩
      · next hopen =>
        rw [Bool.not_eq_true] at hopen
        rcases ih (states.erase pid) (expired ++ [pid]) with
          ⟨hfree, hok⟩ | ⟨⟨e, he, hopen'⟩, herror⟩
        · refine .inl ⟨List.forall_mem_cons.mpr ⟨hopen, hfree⟩, ?_⟩
          rw [hok, List.append_assoc, List.map_cons]
          rfl
        · exact .inr ⟨⟨e, List.mem_cons_of_mem _ he, hopen'⟩, herror⟩

theorem states_expireIdle (registry : ProducerRegistry) :
    registry.expireIdle.2.states =
      (free registry.timeoutTicks registry.states.entries).foldl
        (fun states e => states.erase e.1) registry.states :=
  snd_expireLoop _ _ _ _

theorem get?_of_mem_idle {registry : ProducerRegistry} {e : ℤ × ProducerState}
    (he : e ∈ idle registry.timeoutTicks registry.states.entries) :
    registry.states.get? e.1 = some e.2 ∧ registry.timeoutTicks ≤ e.2.idleTicks := by
  obtain ⟨hmem, hidle⟩ := List.mem_filter.mp he
  exact ⟨registry.states.mem_entries_iff.mp hmem, of_decide_eq_true hidle⟩

/-- If no idle producer has an open transaction, exactly the idle ones are gone. -/
theorem get?_expireIdle_of_free {registry : ProducerRegistry}
    (hfree : ∀ e ∈ idle registry.timeoutTicks registry.states.entries, e.2.inTransaction = false)
    (pid : ℤ) :
    registry.expireIdle.2.states.get? pid =
      (registry.states.get? pid).filter fun st => st.idleTicks < registry.timeoutTicks := by
  have hall : free registry.timeoutTicks registry.states.entries =
      idle registry.timeoutTicks registry.states.entries :=
    List.takeWhile_eq_self_iff.mpr fun e he => by rw [hfree e he]; rfl
  rw [states_expireIdle, hall, Dict.get?_foldl_erase]
  split
  · next hmem =>
    obtain ⟨e, he, rfl⟩ := List.mem_map.mp hmem
    obtain ⟨hsome, hidle⟩ := get?_of_mem_idle he
    rw [hsome, Option.filter_some, if_neg (by simpa using hidle)]
  · next hmem =>
    cases hsome : registry.states.get? pid with
    | none => rfl
    | some st =>
      have hlive : st.idleTicks < registry.timeoutTicks := by
        by_contra hidle
        exact hmem (List.mem_map.mpr ⟨(pid, st), List.mem_filter.mpr
          ⟨registry.states.mem_entries_iff.mpr hsome, decide_eq_true (not_lt.mp hidle)⟩, rfl⟩)
      rw [Option.filter_some, if_pos (decide_eq_true hlive)]

/-- The call changes nothing exactly when the first idle producer has an open transaction: any
other first one is forgotten. -/
theorem expireIdle_eq_self_iff {registry : ProducerRegistry} {first : ℤ × ProducerState}
    {rest : List (ℤ × ProducerState)}
    (hcons : idle registry.timeoutTicks registry.states.entries = first :: rest) :
    registry.expireIdle.2 = registry ↔ first.2.inTransaction = true := by
  have hstates := registry.states_expireIdle
  constructor
  · intro hsame
    by_contra hfree
    have hgone : first.1 ∈ (free registry.timeoutTicks registry.states.entries).map Prod.fst := by
      rw [free, hcons, List.takeWhile_cons_of_pos (by simpa using hfree)]
      exact List.mem_cons_self
    have hlookup : registry.states.get? first.1 = none := by
      rw [← congrArg ProducerRegistry.states hsame, hstates, Dict.get?_foldl_erase, if_pos hgone]
    rw [(get?_of_mem_idle (hcons ▸ List.mem_cons_self)).1] at hlookup
    cases hlookup
  · intro hopen
    have hnone : free registry.timeoutTicks registry.states.entries = [] := by
      rw [free, hcons, List.takeWhile_cons_of_neg (by simpa using hopen)]
    rw [hnone, List.foldl_nil] at hstates
    exact congrArg (fun states => { registry with states := states }) hstates

/-- **When idle producers are forgotten all or none.** In every registry, the call is atomic exactly
when no idle producer has an open transaction, or the first idle one has. -/
theorem expireIdle_atomic_iff (registry : ProducerRegistry) :
    registry.Atomic ↔
      (∀ e ∈ idle registry.timeoutTicks registry.states.entries, e.2.inTransaction = false) ∨
        ∃ e, (idle registry.timeoutTicks registry.states.entries).head? = some e ∧
          e.2.inTransaction = true := by
  rcases fst_expireLoop registry.timeoutTicks registry.states.entries registry.states [] with
    ⟨hfree, hok⟩ | ⟨⟨e, he, hopen⟩, hrefused⟩
  · exact iff_of_true (.inl ⟨hok, get?_expireIdle_of_free hfree⟩) (.inl hfree)
  · obtain ⟨first, hhead⟩ := exists_head?_eq_some he
    obtain ⟨rest, hcons⟩ := List.head?_eq_some_iff.mp hhead
    constructor
    · rintro (⟨hok, -⟩ | ⟨-, -, hsame⟩)
      · obtain ⟨error, herror⟩ := hrefused
        cases hok.symm.trans herror
      · exact .inr ⟨first, hhead, (expireIdle_eq_self_iff hcons).mp hsame⟩
    · rintro (hfree | ⟨first', hhead', hopen'⟩)
      · rw [hfree e he] at hopen
        cases hopen
      · obtain rfl : first = first' := Option.some.inj (hhead.symm.trans hhead')
        obtain ⟨hsome, hidle⟩ := get?_of_mem_idle (hcons ▸ List.mem_cons_self : first ∈ _)
        exact .inr ⟨hrefused, ⟨first.1, first.2, hsome, hidle, hopen'⟩,
          (expireIdle_eq_self_iff hcons).mpr hopen'⟩

/-- Producer 1 is idle and forgotten, then producer 2 turns out to have an open transaction. -/
theorem expireIdle_forgets_before_refusal :
    ∃ registry, registry =
        (track { timeoutTicks := 100, timeoutTicks_pos := by decide } ⟨1, 5, 150, false⟩).track
          ⟨2, 9, 150, true⟩ ∧
      (∃ e, registry.expireIdle.1 = .error e) ∧
      registry.expireIdle.2.states = .ofList [(2, ⟨2, 9, 150, true⟩)] ∧ ¬ registry.Atomic := by
  refine ⟨_, rfl, ⟨_, rfl⟩, rfl, ?_⟩
  rintro (⟨hok, -⟩ | ⟨-, -, hsame⟩)
  · cases hok
  · cases congrArg (fun registry : ProducerRegistry => registry.states.get? 1) hsame

end ProducerRegistry

end Relay
