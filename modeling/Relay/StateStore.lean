import Mathlib.Algebra.Order.Ring.Int
import Mathlib.Data.List.Infix
import Relay.Errors
import Relay.Lib.Dict
import Relay.Lib.Machine

/-!
# Restoring a state store

The local state of a task is the fold of a changelog. A new instance replays the changelog from the
start, record by record in the order of the offsets, and serves reads only once it has caught up
with the end of it. A write is taken once it has been appended to the changelog.

A write moves the restore position to the new end, although the records in between have not been
replayed. They are refused from then on, and the state misses them. And a changelog with no records
is never caught up with. So a restore goes well exactly when there is a record to replay and the
writes come after the last one (`WritesLate`).

## Scope

The report on the progress of a restore is left out.

## Main definitions

* `StateStore`, with `applyChangelog`, `read` and `write`
* `StateStore.Replays`: a run that offers the records of a changelog in their order
* `StateStore.Restores`: what such a run promises

## Main results

* `writesLate_iff_restores`: exactly which runs keep that promise
-/

namespace Relay

/-- A state store, and how much of its changelog it has replayed. -/
structure StateStore where
  changelogEnd : ℤ
  restoredTo : ℤ := 0
  ready : Bool := false
  data : Dict String ℤ := ∅

namespace StateStore

/-- `apply_changelog`. -/
def applyChangelog (store : StateStore) (offset : ℤ) (key : String) (value : ℤ) :
    Except RelayError Unit × StateStore :=
  if offset < store.restoredTo then
    (.error (.invalid (s!"changelog offset {offset} is behind {store.restoredTo}; "
      ++ "applying out of order could shadow a newer value with "
      ++ "an older one")), store)
  else
    (.ok (), { store with
      data := store.data.set key value
      restoredTo := offset + 1
      ready := if store.changelogEnd ≤ offset + 1 then true else store.ready })

/-- `read`. -/
def read (store : StateStore) (key : String) : Except RelayError ℤ :=
  if store.ready = false then
    .error (.invalid (s!"restore is at {store.restoredTo}/{store.changelogEnd}; "
      ++ "reading now would miss keys whose last update is in the "
      ++ "unread tail"))
  else .ok (store.data.getD key 0)

/-- `write`. -/
def write (store : StateStore) (key : String) (value : ℤ) (changelogAcked : Bool) :
    Except RelayError String × StateStore :=
  if changelogAcked = false then
    (.error (.invalid ("the changelog append is not acknowledged; a local "
      ++ "update not yet in the changelog would be lost on a "
      ++ "crash, the gap the changelog exists to close")), store)
  else
    (.ok s!"{key}={value} durable, changelog end {store.changelogEnd + 1}",
      { store with
        data := store.data.set key value
        changelogEnd := store.changelogEnd + 1
        restoredTo := store.changelogEnd + 1 })

end StateStore

/-! ## Runs -/

/-- A call that changes a store. -/
inductive StateStoreCall where
  | applyChangelog (offset : ℤ) (key : String) (value : ℤ)
  | write (key : String) (value : ℤ) (changelogAcked : Bool)
  deriving DecidableEq

/-- What a call answers. -/
inductive StateStoreAnswer where
  | applied (answer : Except RelayError Unit)
  | written (answer : Except RelayError String)

/-- The store as a component. -/
def stateStore : Machine StateStore StateStoreCall StateStoreAnswer where
  step store
    | .applyChangelog offset key value => (store.applyChangelog offset key value).map .applied id
    | .write key value changelogAcked => (store.write key value changelogAcked).map .written id

/-- The record that a call offers from the changelog. -/
def StateStoreCall.offered : StateStoreCall → Option (ℤ × String × ℤ)
  | .applyChangelog offset key value => some (offset, key, value)
  | .write _ _ _ => none

/-- The record that a call appends to the changelog. -/
def StateStoreCall.appended : StateStoreCall → Option (String × ℤ)
  | .applyChangelog _ _ _ => none
  | .write key value _ => some (key, value)

namespace StateStore

/-- A new instance that takes over a changelog. -/
def takeover (changelog : List (String × ℤ)) : StateStore :=
  { changelogEnd := changelog.length }

/-- The run offers the records of the changelog in the order of their offsets, up to some point, and
its writes are acknowledged. -/
structure Replays (changelog : List (String × ℤ)) (calls : List StateStoreCall) : Prop where
  offered : calls.filterMap StateStoreCall.offered <+:
    changelog.zipIdx.map fun e => ((e.2 : ℤ), e.1)
  acked : ∀ key value changelogAcked, .write key value changelogAcked ∈ calls →
    changelogAcked = true

/-- No record of the changelog is refused, and once all are replayed the store is ready and holds
what the changelog with all that was appended to it says. -/
structure Restores (changelog : List (String × ℤ)) (calls : List StateStoreCall) : Prop where
  accepted : ∀ past offset key value future,
    calls = past ++ .applyChangelog offset key value :: future →
    ((stateStore.final (takeover changelog) past).applyChangelog offset key value).1 = .ok ()
  restored : ∀ past, past <+: calls →
    (past.filterMap StateStoreCall.offered).length = changelog.length →
    (stateStore.final (takeover changelog) past).ready = true ∧
      (stateStore.final (takeover changelog) past).data =
        .ofList (changelog ++ past.filterMap StateStoreCall.appended)

/-- No record is offered after a write. -/
def WritesLate (calls : List StateStoreCall) : Prop :=
  calls.Pairwise fun earlier later => later.offered.isSome → earlier.offered.isSome

variable {changelog : List (String × ℤ)} {calls : List StateStoreCall} {call : StateStoreCall}

/-! ## What is offered -/

theorem Replays.of_append {rest : List StateStoreCall} (h : Replays changelog (calls ++ rest)) :
    Replays changelog calls := by
  refine ⟨?_, fun key value acked hmem => h.acked key value acked (List.mem_append_left _ hmem)⟩
  have hoffered := h.offered
  rw [List.filterMap_append] at hoffered
  exact (List.prefix_append _ _).trans hoffered

/-- The next record that is offered is the one at the offset that many records in. -/
theorem Replays.next {offset value : ℤ} {key : String}
    (h : Replays changelog (calls ++ [.applyChangelog offset key value])) :
    offset = (calls.filterMap StateStoreCall.offered).length ∧
      changelog[(calls.filterMap StateStoreCall.offered).length]? = some (key, value) := by
  obtain ⟨rest, hrest⟩ := h.offered
  have hget := congrArg (·[(calls.filterMap StateStoreCall.offered).length]?) hrest
  rw [List.filterMap_append] at hget
  simp only [List.filterMap_cons, StateStoreCall.offered, List.filterMap_nil, List.append_assoc,
    List.getElem?_append_right le_rfl, Nat.sub_self, List.singleton_append,
    List.getElem?_cons_zero, List.getElem?_map, List.getElem?_zipIdx, Nat.zero_add,
    Option.map_map] at hget
  obtain ⟨e, he, heq⟩ := Option.map_eq_some_iff.mp hget.symm
  obtain ⟨rfl, rfl⟩ := Prod.mk.inj heq
  exact ⟨rfl, he⟩

theorem appended_eq_nil_iff :
    calls.filterMap StateStoreCall.appended = [] ↔
      ∀ call ∈ calls, (StateStoreCall.offered call).isSome := by
  rw [List.filterMap_eq_nil_iff]
  refine forall₂_congr fun call _ => ?_
  cases call with
  | applyChangelog offset key value => exact iff_of_true rfl rfl
  | write key value acked => exact iff_of_false nofun nofun

theorem length_offered_applyChangelog (calls : List StateStoreCall) (offset value : ℤ)
    (key : String) :
    ((calls ++ [StateStoreCall.applyChangelog offset key value]).filterMap
        StateStoreCall.offered).length =
      (calls.filterMap StateStoreCall.offered).length + 1 := by
  rw [List.filterMap_append, List.length_append]
  rfl

theorem offered_write (calls : List StateStoreCall) (key : String) (value : ℤ) (acked : Bool) :
    (calls ++ [StateStoreCall.write key value acked]).filterMap StateStoreCall.offered =
      calls.filterMap StateStoreCall.offered :=
  List.filterMap_append.trans (List.append_nil _)

theorem appended_applyChangelog (calls : List StateStoreCall) (offset value : ℤ) (key : String) :
    (calls ++ [StateStoreCall.applyChangelog offset key value]).filterMap StateStoreCall.appended =
      calls.filterMap StateStoreCall.appended :=
  List.filterMap_append.trans (List.append_nil _)

theorem appended_write (calls : List StateStoreCall) (key : String) (value : ℤ) (acked : Bool) :
    (calls ++ [StateStoreCall.write key value acked]).filterMap StateStoreCall.appended =
      calls.filterMap StateStoreCall.appended ++ [(key, value)] :=
  List.filterMap_append

/-- Every record is offered before anything is appended. -/
theorem writesLate_iff :
    WritesLate calls ↔ ∀ past offset key value future,
      calls = past ++ .applyChangelog offset key value :: future →
        past.filterMap StateStoreCall.appended = [] := by
  have hjustified : Justified (fun past later => ∀ earlier ∈ past,
      later.offered.isSome → earlier.offered.isSome) calls ↔ WritesLate calls :=
    justified_iff_pairwise
  rw [← hjustified]
  constructor
  · intro h past offset key value future hsplit
    exact appended_eq_nil_iff.mpr fun d hd => h past _ future hsplit d hd rfl
  · intro h past call future hsplit d hd hcall
    cases call with
    | applyChangelog offset key value =>
      exact appended_eq_nil_iff.mp (h past offset key value future hsplit) d hd
    | write key value acked => cases hcall

/-! ## What a store has restored -/

/-- What the state says of the run that led to it: before the first write it is the fold of what was
offered, and after it no record of the changelog is let in any more. -/
structure Books (changelog : List (String × ℤ)) (calls : List StateStoreCall) : Prop where
  changelogEnd : (stateStore.final (takeover changelog) calls).changelogEnd =
    changelog.length + (calls.filterMap StateStoreCall.appended).length
  before : calls.filterMap StateStoreCall.appended = [] →
    (stateStore.final (takeover changelog) calls).restoredTo =
      (calls.filterMap StateStoreCall.offered).length
  after : calls.filterMap StateStoreCall.appended ≠ [] →
    changelog.length < (stateStore.final (takeover changelog) calls).restoredTo

/-- The next record is let in exactly as long as nothing was written. -/
theorem Books.applyChangelog_eq (h : Books changelog calls) {offset value : ℤ} {key : String}
    (hnext : Replays changelog (calls ++ [.applyChangelog offset key value])) :
    (calls.filterMap StateStoreCall.appended = [] ∧
        (stateStore.final (takeover changelog) calls).applyChangelog offset key value =
          (.ok (), { stateStore.final (takeover changelog) calls with
            data := (stateStore.final (takeover changelog) calls).data.set key value
            restoredTo := offset + 1
            ready := if (stateStore.final (takeover changelog) calls).changelogEnd ≤ offset + 1
              then true else (stateStore.final (takeover changelog) calls).ready })) ∨
      calls.filterMap StateStoreCall.appended ≠ [] ∧
        ∃ error, (stateStore.final (takeover changelog) calls).applyChangelog offset key value =
          (.error error, stateStore.final (takeover changelog) calls) := by
  obtain ⟨rfl, hget⟩ := hnext.next
  by_cases hnone : calls.filterMap StateStoreCall.appended = []
  · refine .inl ⟨hnone, if_neg ?_⟩
    rw [h.before hnone]
    exact lt_irrefl _
  · refine .inr ⟨hnone, _, if_pos ?_⟩
    have hlt := (List.getElem?_eq_some_iff.mp hget).1
    have hafter := h.after hnone
    omega

/-- **One call.** -/
theorem Books.step (h : Books changelog calls) (hnext : Replays changelog (calls ++ [call])) :
    Books changelog (calls ++ [call]) := by
  have hfinal := stateStore.final_append_singleton (takeover changelog) calls call
  cases call with
  | applyChangelog offset key value =>
    have hstep : (stateStore.step (stateStore.final (takeover changelog) calls)
        (.applyChangelog offset key value)).2 = ((stateStore.final (takeover changelog)
          calls).applyChangelog offset key value).2 := rfl
    rw [hstep] at hfinal
    rcases h.applyChangelog_eq hnext with ⟨hnone, heq⟩ | ⟨hsome, error, heq⟩
    · rw [heq] at hfinal
      constructor <;> rw [hfinal, appended_applyChangelog]
      · exact h.changelogEnd
      · intro _
        rw [length_offered_applyChangelog, hnext.next.1]
        rfl
      · exact fun hsome => absurd hnone hsome
    · rw [heq] at hfinal
      constructor <;> rw [hfinal, appended_applyChangelog]
      · exact h.changelogEnd
      · exact fun hnone => absurd hnone hsome
      · exact h.after
  | write key value acked =>
    obtain rfl := hnext.acked key value acked (List.mem_append_right _ (List.mem_singleton_self _))
    have hend : (stateStore.final (takeover changelog)
        (calls ++ [.write key value true])).changelogEnd =
          (stateStore.final (takeover changelog) calls).changelogEnd + 1 :=
      congrArg StateStore.changelogEnd hfinal
    constructor
    · rw [hend, h.changelogEnd, appended_write, List.length_append]
      push_cast
      rw [add_assoc]
      rfl
    · rw [appended_write]
      exact fun hnil => absurd (List.append_eq_nil_iff.mp hnil).2 (List.cons_ne_nil _ _)
    · intro _
      have hrestored : (stateStore.final (takeover changelog)
          (calls ++ [.write key value true])).restoredTo =
            (stateStore.final (takeover changelog) calls).changelogEnd + 1 :=
        congrArg StateStore.restoredTo hfinal
      rw [hrestored, h.changelogEnd]
      omega

theorem Replays.books (h : Replays changelog calls) : Books changelog calls := by
  induction calls using List.reverseRecOn with
  | nil => exact ⟨(add_zero _).symm, fun _ => rfl, fun hsome => absurd rfl hsome⟩
  | append_singleton calls call ih => exact (ih h.of_append).step h

/-- With the writes late, the state is the fold of what was offered and then of what was written,
and it is ready once every record has been offered. -/
theorem Replays.caughtUp (h : Replays changelog calls) (hlate : WritesLate calls) :
    (stateStore.final (takeover changelog) calls).data =
        .ofList (changelog.take (calls.filterMap StateStoreCall.offered).length ++
          calls.filterMap StateStoreCall.appended) ∧
      (changelog ≠ [] → (calls.filterMap StateStoreCall.offered).length = changelog.length →
        (stateStore.final (takeover changelog) calls).ready = true) := by
  induction calls using List.reverseRecOn with
  | nil => exact ⟨rfl, fun hne hlen => absurd (List.length_eq_zero_iff.mp hlen.symm) hne⟩
  | append_singleton calls call ih =>
    obtain ⟨hdata, hready⟩ := ih h.of_append (pairwise_append_singleton.mp hlate).1
    have hbooks := h.of_append.books
    have hfinal := stateStore.final_append_singleton (takeover changelog) calls call
    cases call with
    | applyChangelog offset key value =>
      have hnone := writesLate_iff.mp hlate calls offset key value [] rfl
      obtain ⟨-, heq⟩ | ⟨hsome, -⟩ := hbooks.applyChangelog_eq h
      · have hstep : (stateStore.step (stateStore.final (takeover changelog) calls)
            (.applyChangelog offset key value)).2 = ((stateStore.final (takeover changelog)
              calls).applyChangelog offset key value).2 := rfl
        rw [hstep, heq] at hfinal
        obtain ⟨rfl, hget⟩ := h.next
        rw [length_offered_applyChangelog, appended_applyChangelog, hfinal]
        constructor
        · show Dict.set _ key value = _
          rw [hdata, hnone, List.append_nil, List.append_nil, List.take_add_one, hget,
            Option.toList_some, Dict.ofList_append_singleton]
        · intro _ hall
          have hend := hbooks.changelogEnd
          rw [hnone, List.length_nil] at hend
          exact if_pos (by omega)
      · exact absurd hnone hsome
    | write key value acked =>
      obtain rfl := h.acked key value acked
        (List.mem_append_right _ (List.mem_singleton_self _))
      rw [offered_write, appended_write, hfinal]
      refine ⟨?_, hready⟩
      show Dict.set _ key value = _
      rw [hdata, ← List.append_assoc, Dict.ofList_append_singleton]

/-- **When a restore keeps its promise.** Exactly when the changelog has a record to replay and no
record is offered after a write. -/
theorem writesLate_iff_restores (h : Replays changelog calls) :
    Restores changelog calls ↔ changelog ≠ [] ∧ WritesLate calls := by
  constructor
  · intro hrestores
    constructor
    · rintro rfl
      exact Bool.false_ne_true (hrestores.restored [] (List.nil_prefix) rfl).1
    · refine writesLate_iff.mpr fun past offset key value future hsplit => ?_
      have haccepted := hrestores.accepted past offset key value future hsplit
      rw [hsplit, List.append_cons] at h
      obtain ⟨hnone, -⟩ | ⟨-, error, heq⟩ :=
        h.of_append.of_append.books.applyChangelog_eq h.of_append
      · exact hnone
      · rw [heq] at haccepted
        cases haccepted
  · rintro ⟨hne, hlate⟩
    constructor
    · intro past offset key value future hsplit
      have hnone := writesLate_iff.mp hlate past offset key value future hsplit
      rw [hsplit, List.append_cons] at h
      obtain ⟨-, heq⟩ | ⟨hsome, -⟩ :=
        h.of_append.of_append.books.applyChangelog_eq h.of_append
      · rw [heq]
      · exact absurd hnone hsome
    · rintro past ⟨future, rfl⟩ hall
      obtain ⟨hdata, hready⟩ := h.of_append.caughtUp (List.pairwise_append.mp hlate).1
      refine ⟨hready hne hall, ?_⟩
      rw [hdata, hall, List.take_length]

/-- A store that replays two records and then takes a write. -/
theorem writesLate_iff_restores_two :
    Restores [("a", 1), ("b", 2)]
        [.applyChangelog 0 "a" 1, .applyChangelog 1 "b" 2, .write "a" 3 true] ↔
      [("a", (1 : ℤ)), ("b", 2)] ≠ [] ∧
        WritesLate [.applyChangelog 0 "a" 1, .applyChangelog 1 "b" 2, .write "a" 3 true] :=
  writesLate_iff_restores ⟨by decide, by simp⟩

/-- **A write in the middle of a restore.** The record after it is refused, and its key is missing
from the state although every record was offered. -/
theorem refused_after_write :
    ¬ ∀ changelog calls, Replays changelog calls → Restores changelog calls := by
  intro h
  have hrestores := h [("a", 1), ("b", 2)]
    [.applyChangelog 0 "a" 1, .write "c" 3 true, .applyChangelog 1 "b" 2] ⟨by decide, by simp⟩
  have haccepted := hrestores.accepted [.applyChangelog 0 "a" 1, .write "c" 3 true] 1 "b" 2 [] rfl
  cases haccepted

end StateStore

end Relay
