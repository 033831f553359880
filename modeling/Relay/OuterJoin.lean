import Mathlib.Algebra.Order.Ring.Int
import Relay.Errors
import Relay.Lib.Dict
import Relay.Lib.Machine

/-!
# Outer joins

An outer join keeps a record that waits for its match, and emits it with a null once its window has
closed without one. A record is thus waiting, or matched, or emitted with a null, and it must be in
one of these states only.

There is one entry for a key, and no record of its own for each arrival. An arrival takes the place
of a record of the same key that is still waiting, which then is in no state at all. And while
`advance` leaves matched records alone, `emitUnmatched` looks only at the window, so that a matched
record is emitted with a null as well. Nothing else goes wrong: records are conserved exactly when
neither happens (`Conserving`).

## Scope

The report on how many records wait is left out.

## Main definitions

* `OuterJoin`, with `arrive`, `matchKey`, `advance` and `emitUnmatched`
* `OuterJoin.Waiting`, `Matched` and `Nulled`: the states of a record, by the call it arrived with
* `OuterJoin.Conserved`: what a run promises of its records

## Main results

* `conserving_iff_conserved`: exactly which runs keep that promise
-/

namespace Relay

/-- The records that wait for a match, or have had it, by their keys. -/
structure OuterJoin where
  window : ℤ
  /-- When the record arrived, and whether it has been matched. -/
  pending : Dict String (ℤ × Bool) := ∅

namespace OuterJoin

/-- `arrive`. -/
def arrive (join : OuterJoin) (key : String) (time : ℤ) : OuterJoin :=
  { join with pending := join.pending.set key (time, false) }

/-- `match`. -/
def matchKey (join : OuterJoin) (key : String) : Except RelayError String × OuterJoin :=
  match join.pending.get? key with
  | none => (.error (.invalid s!"no pending record for key '{key}' to match"), join)
  | some (arrival, _) =>
    (.ok s!"joined pair for '{key}'; the pending unmatched emission is cancelled",
      { join with pending := join.pending.set key (arrival, true) })

/-- `window_closed`. -/
def windowClosed (join : OuterJoin) (key : String) (watermark : ℤ) : Bool :=
  match join.pending.get? key with
  | none => false
  | some (arrival, _) => arrival + join.window < watermark

/-- The loop of `advance`. -/
def advanceLoop (window watermark : ℤ) :
    List String → Dict String (ℤ × Bool) → List String → List String × Dict String (ℤ × Bool)
  | [], pending, emitted => (emitted, pending)
  | key :: keys, pending, emitted =>
    match pending.get? key with
    | none => advanceLoop window watermark keys pending emitted
    | some (arrival, isMatched) =>
      if isMatched = false ∧ arrival + window < watermark then
        advanceLoop window watermark keys (pending.erase key) (emitted ++ [key])
      else advanceLoop window watermark keys pending emitted

/-- `advance`. -/
def advance (join : OuterJoin) (watermark : ℤ) : List String × OuterJoin :=
  let outcome := advanceLoop join.window watermark join.pending.keys join.pending []
  (outcome.1, { join with pending := outcome.2 })

/-- `emit_unmatched`. -/
def emitUnmatched (join : OuterJoin) (key : String) (watermark : ℤ) :
    Except RelayError String × OuterJoin :=
  if join.windowClosed key watermark = false then
    (.error (.invalid (s!"window for '{key}' has not closed; emitting unmatched now "
      ++ "would declare no-match while a match could still arrive")), join)
  else
    (.ok s!"emitted '{key}' with a null; its window closed unmatched",
      { join with pending := join.pending.erase key })

end OuterJoin

/-! ## Runs -/

/-- A call to a join. -/
inductive OuterJoinCall where
  | arrive (key : String) (time : ℤ)
  | matchKey (key : String)
  | advance (watermark : ℤ)
  | emitUnmatched (key : String) (watermark : ℤ)
  deriving DecidableEq

/-- The watermark a call is made at, if it says. -/
def OuterJoinCall.watermark : OuterJoinCall → Option ℤ
  | .arrive _ _ => none
  | .matchKey _ => none
  | .advance watermark => some watermark
  | .emitUnmatched _ watermark => some watermark

/-- The call brings a record for the key. -/
def OuterJoinCall.brings : OuterJoinCall → String → Bool
  | .arrive key' _, key => key' = key
  | _, _ => false

/-- What a call answers. -/
inductive OuterJoinAnswer where
  | arrived
  | returned (answer : Except RelayError String)
  | emitted (keys : List String)

/-- The join as a component. -/
def outerJoin : Machine OuterJoin OuterJoinCall OuterJoinAnswer where
  step join
    | .arrive key time => (.arrived, join.arrive key time)
    | .matchKey key => (join.matchKey key).map .returned id
    | .advance watermark => (join.advance watermark).map .emitted id
    | .emitUnmatched key watermark => (join.emitUnmatched key watermark).map .returned id

/-- The key whose record a call matched. -/
def matchedBy : OuterJoinCall × OuterJoinAnswer → List String
  | (.matchKey key, .returned (.ok _)) => [key]
  | _ => []

/-- The keys whose records a call emitted with a null. -/
def nulledBy : OuterJoinCall × OuterJoinAnswer → List String
  | (.advance _, .emitted keys) => keys
  | (.emitUnmatched key _, .returned (.ok _)) => [key]
  | _ => []

namespace OuterJoin

/-- The last call that brought a record for the key. -/
def lastArrival (calls : List OuterJoinCall) (key : String) : Option ℕ :=
  ((calls.zipIdx.filter fun e => e.1.brings key).getLast?).map Prod.snd

/-- A record arrived with the call. -/
def Arrived (calls : List OuterJoinCall) (i : ℕ) : Prop :=
  ∃ key time, calls[i]? = some (.arrive key time)

/-- The record is the last of its key, and what is pending for the key is unmatched. -/
def Waiting (join : OuterJoin) (calls : List OuterJoinCall) (i : ℕ) : Prop :=
  ∃ key time, lastArrival calls key = some i ∧
    (outerJoin.final join calls).pending.get? key = some (time, false)

/-- Some call acted on the record: by then it was the last of a key that the call acted on. -/
def Underwent (join : OuterJoin) (keysOf : OuterJoinCall × OuterJoinAnswer → List String)
    (calls : List OuterJoinCall) (i : ℕ) : Prop :=
  Occurs (fun past call => ∃ key ∈ keysOf (call, (outerJoin.step (outerJoin.final join past)
    call).1), lastArrival past key = some i) calls

/-- Some call matched the record. -/
def Matched (join : OuterJoin) : List OuterJoinCall → ℕ → Prop :=
  join.Underwent matchedBy

/-- Some call emitted the record with a null. -/
def Nulled (join : OuterJoin) : List OuterJoinCall → ℕ → Prop :=
  join.Underwent nulledBy

/-- The record that a call emits with a null arrived more than the window before its watermark. -/
def NullsLate (join : OuterJoin) (past : List OuterJoinCall) (call : OuterJoinCall) : Prop :=
  ∀ key ∈ nulledBy (call, (outerJoin.step (outerJoin.final join past) call).1),
    ∃ i time watermark, lastArrival past key = some i ∧ past[i]? = some (.arrive key time) ∧
      call.watermark = some watermark ∧ time + join.window < watermark

/-- The record is in exactly one of the three states. -/
def InOneState (join : OuterJoin) (calls : List OuterJoinCall) (i : ℕ) : Prop :=
  (join.Waiting calls i ∧ ¬ join.Matched calls i ∧ ¬ join.Nulled calls i) ∨
  (¬ join.Waiting calls i ∧ join.Matched calls i ∧ ¬ join.Nulled calls i) ∨
  (¬ join.Waiting calls i ∧ ¬ join.Matched calls i ∧ join.Nulled calls i)

/-- Every record that arrived is in exactly one state. -/
def OneState (join : OuterJoin) (calls : List OuterJoinCall) : Prop :=
  ∀ i, Arrived calls i → join.InOneState calls i

/-- Every record is in exactly one state, and nulls are emitted only once the window has closed. -/
structure Conserved (join : OuterJoin) (calls : List OuterJoinCall) : Prop where
  oneState : join.OneState calls
  nullsLate : Justified join.NullsLate calls

/-- No record arrives for a key that has one waiting, and no matched record whose window has closed
is asked to be emitted unmatched. -/
def Conserving (join : OuterJoin) : OuterJoinCall → Prop
  | .arrive key _ => ∀ arrival, join.pending.get? key ≠ some (arrival, false)
  | .matchKey _ => True
  | .advance _ => True
  | .emitUnmatched key watermark =>
    ∀ arrival, join.pending.get? key = some (arrival, true) → watermark ≤ arrival + join.window

/-! ## One call -/

/-- What is pending for the key is unmatched, and its window has closed. -/
def overdue (window watermark : ℤ) (pending : Dict String (ℤ × Bool)) (key : String) : Bool :=
  (pending.get? key).any fun e => e.2 = false ∧ e.1 + window < watermark

theorem overdue_iff {window watermark : ℤ} {pending : Dict String (ℤ × Bool)} {key : String} :
    overdue window watermark pending key = true ↔
      ∃ arrival, pending.get? key = some (arrival, false) ∧ arrival + window < watermark := by
  rw [overdue, Option.any_eq_true]
  constructor
  · rintro ⟨⟨arrival, isMatched⟩, hget, hdue⟩
    obtain ⟨rfl, hpast⟩ := of_decide_eq_true hdue
    exact ⟨arrival, hget, hpast⟩
  · rintro ⟨arrival, hget, hpast⟩
    exact ⟨(arrival, false), hget, decide_eq_true ⟨rfl, hpast⟩⟩

/-- The loop emits and forgets the keys that are overdue. -/
theorem advanceLoop_eq (window watermark : ℤ) {keys : List String} (hkeys : keys.Nodup)
    (pending : Dict String (ℤ × Bool)) (emitted : List String) :
    advanceLoop window watermark keys pending emitted =
      (emitted ++ keys.filter (overdue window watermark pending),
        (keys.filter (overdue window watermark pending)).foldl (fun pending key =>
          pending.erase key) pending) := by
  induction keys generalizing pending emitted with
  | nil => exact congrArg (·, pending) (List.append_nil emitted).symm
  | cons key keys ih =>
    obtain ⟨hnew, hnodup⟩ := List.nodup_cons.mp hkeys
    rw [advanceLoop]
    split
    · next hnone =>
      have hkeep : overdue window watermark pending key ≠ true := by
        rw [overdue, hnone]
        exact Bool.false_ne_true
      rw [List.filter_cons_of_neg hkeep]
      exact ih hnodup pending emitted
    · next arrival isMatched hsome =>
      have hoverdue : overdue window watermark pending key =
          decide (isMatched = false ∧ arrival + window < watermark) := by
        rw [overdue, hsome]
        rfl
      split
      · next hdue =>
        -- the keys to come are other ones, so it makes no difference to them
        have hrest : keys.filter (overdue window watermark (pending.erase key)) =
            keys.filter (overdue window watermark pending) := by
          refine List.filter_congr fun k hk => ?_
          have hne : k ≠ key := fun heq => hnew (heq ▸ hk)
          rw [overdue, overdue, Dict.get?_erase, if_neg hne]
        rw [ih hnodup, hrest, List.filter_cons_of_pos (hoverdue.trans (decide_eq_true hdue)),
          List.foldl_cons, List.append_assoc]
        rfl
      · next hkeep =>
        rw [List.filter_cons_of_neg (by simpa [hoverdue] using hkeep)]
        exact ih hnodup pending emitted

theorem advance_eq (join : OuterJoin) (watermark : ℤ) :
    join.advance watermark =
      (join.pending.keys.filter (overdue join.window watermark join.pending),
        { join with
          pending := (join.pending.keys.filter (overdue join.window watermark join.pending)).foldl
            (fun pending key => pending.erase key) join.pending }) := by
  have hkeys : join.pending.keys.Nodup := join.pending.nodup
  rw [advance, advanceLoop_eq _ _ hkeys, List.nil_append]

theorem mem_advance {join : OuterJoin} {watermark : ℤ} {key : String} :
    key ∈ (join.advance watermark).1 ↔
      overdue join.window watermark join.pending key = true := by
  rw [advance_eq, List.mem_filter]
  refine and_iff_right_of_imp fun hdue => ?_
  obtain ⟨arrival, hget, -⟩ := overdue_iff.mp hdue
  exact (Dict.mem_keys_iff _).mpr ⟨_, hget⟩

theorem get?_advance (join : OuterJoin) (watermark : ℤ) (key : String) :
    (join.advance watermark).2.pending.get? key =
      if key ∈ (join.advance watermark).1 then none else join.pending.get? key := by
  rw [advance_eq, Dict.get?_foldl_erase, List.map_id']

/-- What a call does to a key. -/
inductive Effect (join : OuterJoin) (call : OuterJoinCall) (next : OuterJoin)
    (isMatched isNulled : Prop) (key : String) : Prop where
  /-- Its record is matched. -/
  | matched (arrival : ℤ) (before : Bool) (hmatched : isMatched) (hnulled : ¬ isNulled)
      (hbefore : join.pending.get? key = some (arrival, before))
      (hafter : next.pending.get? key = some (arrival, true))
  /-- Its record is emitted with a null. -/
  | nulled (arrival : ℤ) (before : Bool) (watermark : ℤ) (hmatched : ¬ isMatched)
      (hnulled : isNulled) (hbefore : join.pending.get? key = some (arrival, before))
      (hafter : next.pending.get? key = none) (hwatermark : call.watermark = some watermark)
      (hlate : arrival + join.window < watermark)
  /-- Nothing. -/
  | none (hmatched : ¬ isMatched) (hnulled : ¬ isNulled)
      (hsame : next.pending.get? key = join.pending.get? key)

/-- What a call does to each key, and when it emits no matched record. -/
structure Effects (join : OuterJoin) (call : OuterJoinCall) : Prop where
  effect : ∀ key, Effect join call (outerJoin.step join call).2
    (key ∈ matchedBy (call, (outerJoin.step join call).1))
    (key ∈ nulledBy (call, (outerJoin.step join call).1)) key
  conserving_iff : join.Conserving call ↔
    ∀ key arrival, join.pending.get? key = some (arrival, true) →
      key ∉ nulledBy (call, (outerJoin.step join call).1)

theorem effects_matchKey (join : OuterJoin) (key : String) : join.Effects (.matchKey key) := by
  have hstep : outerJoin.step join (.matchKey key) = (join.matchKey key).map .returned id := rfl
  have hnone : nulledBy (.matchKey key, (outerJoin.step join (.matchKey key)).1) = [] := rfl
  constructor
  · intro k
    rw [hnone, hstep, matchKey]
    split
    · exact .none List.not_mem_nil List.not_mem_nil rfl
    · next arrival before hbefore =>
      by_cases hk : k = key
      · subst hk
        exact .matched arrival before (List.mem_singleton_self k) List.not_mem_nil hbefore
          (Dict.get?_set_self _ _ _)
      · exact .none (mt List.mem_singleton.mp hk) List.not_mem_nil (Dict.get?_set_of_ne _ _ hk)
  · rw [hnone]
    exact iff_of_true trivial fun _ _ _ => List.not_mem_nil

theorem effects_advance (join : OuterJoin) (watermark : ℤ) :
    join.Effects (.advance watermark) := by
  constructor
  · intro k
    by_cases hk : k ∈ (join.advance watermark).1
    · obtain ⟨arrival, hbefore, hlate⟩ := overdue_iff.mp (mem_advance.mp hk)
      exact .nulled arrival false watermark List.not_mem_nil hk hbefore
        ((join.get?_advance watermark k).trans (if_pos hk)) rfl hlate
    · exact .none List.not_mem_nil hk ((join.get?_advance watermark k).trans (if_neg hk))
  · refine iff_of_true trivial fun k arrival hmatched hk => ?_
    obtain ⟨arrival', hunmatched, -⟩ := overdue_iff.mp (mem_advance.mp hk)
    cases hmatched.symm.trans hunmatched

theorem windowClosed_iff {join : OuterJoin} {key : String} {watermark : ℤ} :
    join.windowClosed key watermark = true ↔ ∃ arrival before,
      join.pending.get? key = some (arrival, before) ∧ arrival + join.window < watermark := by
  rw [windowClosed]
  split
  · next hnone => simp [hnone]
  · next arrival before hbefore => simp [hbefore]

theorem effects_emitUnmatched (join : OuterJoin) (key : String) (watermark : ℤ) :
    join.Effects (.emitUnmatched key watermark) := by
  have hstep : outerJoin.step join (.emitUnmatched key watermark) =
      (join.emitUnmatched key watermark).map .returned id := rfl
  cases hwindow : join.windowClosed key watermark with
  | false =>
    rw [emitUnmatched, if_pos hwindow] at hstep
    constructor
    · intro k
      rw [hstep]
      exact .none List.not_mem_nil List.not_mem_nil rfl
    · rw [hstep]
      refine iff_of_true (fun arrival hmatched => not_lt.mp fun hlate => ?_) fun _ _ _ =>
        List.not_mem_nil
      rw [windowClosed_iff.mpr ⟨arrival, true, hmatched, hlate⟩] at hwindow
      cases hwindow
  | true =>
    obtain ⟨arrival, before, hbefore, hlate⟩ := windowClosed_iff.mp hwindow
    rw [emitUnmatched, if_neg (by rw [hwindow]; exact Bool.noConfusion)] at hstep
    constructor
    · intro k
      rw [hstep]
      by_cases hk : k = key
      · subst hk
        exact .nulled arrival before watermark List.not_mem_nil (List.mem_singleton_self k)
          hbefore ((Dict.get?_erase _ _ _).trans (if_pos rfl)) rfl hlate
      · exact .none List.not_mem_nil (mt List.mem_singleton.mp hk)
          ((Dict.get?_erase _ _ _).trans (if_neg hk))
    · rw [hstep]
      constructor
      · rintro hconserving k arrival' hmatched hk
        obtain rfl := List.mem_singleton.mp hk
        obtain ⟨rfl, -⟩ := Prod.mk.inj (Option.some.inj (hmatched.symm.trans hbefore))
        exact absurd hlate (not_lt.mpr (hconserving arrival' hmatched))
      · rintro hnot arrival' hmatched
        exact absurd (List.mem_singleton_self key) (hnot key arrival' hmatched)

/-- The effects of every call that brings no record. -/
theorem effects_of_not_arrive (join : OuterJoin) {call : OuterJoinCall}
    (hcall : ∀ key time, call ≠ .arrive key time) : join.Effects call := by
  cases call with
  | arrive key time => exact absurd rfl (hcall key time)
  | matchKey key => exact join.effects_matchKey key
  | advance watermark => exact join.effects_advance watermark
  | emitUnmatched key watermark => exact join.effects_emitUnmatched key watermark

/-! ## The last arrival -/

variable {join : OuterJoin} {calls : List OuterJoinCall} {call : OuterJoinCall} {key : String}
  {i : ℕ}

theorem lastArrival_append_singleton (calls : List OuterJoinCall) (call : OuterJoinCall)
    (key : String) : lastArrival (calls ++ [call]) key =
      if call.brings key then some calls.length else lastArrival calls key := by
  rw [lastArrival, List.zipIdx_append, List.filter_append, List.getLast?_append]
  cases hbrings : call.brings key with
  | true => simp [hbrings]
  | false => simp [hbrings, lastArrival]

theorem brings_iff : call.brings key = true ↔ ∃ time, call = .arrive key time := by
  cases call with
  | arrive key' time =>
    constructor
    · intro h
      obtain rfl : key' = key := of_decide_eq_true h
      exact ⟨time, rfl⟩
    · rintro ⟨time', heq⟩
      exact decide_eq_true (OuterJoinCall.arrive.inj heq).1
  | matchKey _ => exact iff_of_false nofun nofun
  | advance _ => exact iff_of_false nofun nofun
  | emitUnmatched _ _ => exact iff_of_false nofun nofun

theorem lastArrival_append_arrive (calls : List OuterJoinCall) (key : String) (time : ℤ)
    (k : String) : lastArrival (calls ++ [.arrive key time]) k =
      if k = key then some calls.length else lastArrival calls k := by
  have hbrings : (OuterJoinCall.arrive key time).brings k = true ↔ k = key :=
    decide_eq_true_iff.trans eq_comm
  rw [lastArrival_append_singleton, if_congr hbrings rfl rfl]

theorem lastArrival_of_not_arrive (hcall : ∀ key time, call ≠ .arrive key time)
    (calls : List OuterJoinCall) (key : String) :
    lastArrival (calls ++ [call]) key = lastArrival calls key := by
  rw [lastArrival_append_singleton, if_neg]
  rw [brings_iff]
  exact fun ⟨time, heq⟩ => hcall key time heq

/-- The last arrival of a key is an arrival of the key. -/
theorem getElem?_lastArrival (h : lastArrival calls key = some i) :
    ∃ time, calls[i]? = some (.arrive key time) := by
  induction calls using List.reverseRecOn with
  | nil => cases h
  | append_singleton calls call ih =>
    rw [lastArrival_append_singleton] at h
    split at h
    · next hbrings =>
      obtain ⟨time, rfl⟩ := brings_iff.mp hbrings
      obtain rfl := Option.some.inj h
      exact ⟨time, List.getElem?_concat_length⟩
    · obtain ⟨time, htime⟩ := ih h
      exact ⟨time, getElem?_append_singleton_eq_some.mpr (.inl htime)⟩

theorem lt_length_of_lastArrival (h : lastArrival calls key = some i) : i < calls.length := by
  obtain ⟨time, htime⟩ := getElem?_lastArrival h
  exact (List.getElem?_eq_some_iff.mp htime).1

/-- A record is the last of one key only. -/
theorem eq_of_lastArrival {key' : String} (h : lastArrival calls key = some i)
    (h' : lastArrival calls key' = some i) : key' = key := by
  obtain ⟨time, htime⟩ := getElem?_lastArrival h
  obtain ⟨time', htime'⟩ := getElem?_lastArrival h'
  exact (OuterJoinCall.arrive.inj (Option.some.inj (htime'.symm.trans htime))).1

theorem waiting_iff (h : lastArrival calls key = some i) :
    join.Waiting calls i ↔
      ∃ time, (outerJoin.final join calls).pending.get? key = some (time, false) := by
  constructor
  · rintro ⟨key', time, hlast, hget⟩
    exact ⟨time, eq_of_lastArrival h hlast ▸ hget⟩
  · rintro ⟨time, hget⟩
    exact ⟨key, time, h, hget⟩

section Underwent

variable {keysOf : OuterJoinCall × OuterJoinAnswer → List String}

/-- A call acts on the record that is the last of a key by acting on the key. -/
theorem underwent_append_singleton (h : lastArrival calls key = some i) :
    join.Underwent keysOf (calls ++ [call]) i ↔ join.Underwent keysOf calls i ∨
      key ∈ keysOf (call, (outerJoin.step (outerJoin.final join calls) call).1) := by
  refine occurs_append_singleton.trans (or_congr_right ⟨?_, fun hkey => ⟨key, hkey, h⟩⟩)
  rintro ⟨key', hkey', hlast⟩
  exact eq_of_lastArrival h hlast ▸ hkey'

/-- A call does nothing to a record that is no longer the last of its key. -/
theorem underwent_append_of_forall_ne (h : ∀ key, lastArrival calls key ≠ some i) :
    join.Underwent keysOf (calls ++ [call]) i ↔ join.Underwent keysOf calls i :=
  occurs_append_singleton.trans (or_iff_left fun ⟨key, _, hlast⟩ => h key hlast)

theorem underwent_append_of_eq_nil
    (h : keysOf (call, (outerJoin.step (outerJoin.final join calls) call).1) = []) :
    join.Underwent keysOf (calls ++ [call]) i ↔ join.Underwent keysOf calls i := by
  refine occurs_append_singleton.trans (or_iff_left ?_)
  rintro ⟨key, hkey, -⟩
  rw [h] at hkey
  exact List.not_mem_nil hkey

/-- Only a record that has arrived is acted on. -/
theorem Underwent.lt_length (h : join.Underwent keysOf calls i) : i < calls.length := by
  induction calls using List.reverseRecOn with
  | nil => exact absurd h (not_occurs_nil _)
  | append_singleton calls call ih =>
    rw [List.length_append, List.length_singleton]
    rcases occurs_append_singleton.mp h with h | ⟨key, -, hlast⟩
    · exact Nat.lt_succ_of_lt (ih h)
    · exact Nat.lt_succ_of_lt (lt_length_of_lastArrival hlast)

end Underwent

theorem matched_append_singleton (h : lastArrival calls key = some i) :
    join.Matched (calls ++ [call]) i ↔ join.Matched calls i ∨
      key ∈ matchedBy (call, (outerJoin.step (outerJoin.final join calls) call).1) :=
  underwent_append_singleton h

theorem nulled_append_singleton (h : lastArrival calls key = some i) :
    join.Nulled (calls ++ [call]) i ↔ join.Nulled calls i ∨
      key ∈ nulledBy (call, (outerJoin.step (outerJoin.final join calls) call).1) :=
  underwent_append_singleton h

/-- An arrival matches nothing and emits nothing. -/
theorem append_arrive (join : OuterJoin) (calls : List OuterJoinCall) (key : String) (time : ℤ)
    (i : ℕ) :
    (join.Matched (calls ++ [.arrive key time]) i ↔ join.Matched calls i) ∧
      (join.Nulled (calls ++ [.arrive key time]) i ↔ join.Nulled calls i) :=
  ⟨underwent_append_of_eq_nil rfl, underwent_append_of_eq_nil rfl⟩

/-! ## What is pending -/

/-- What is pending for a key is its last arrival, with whether it was matched; an unmatched one was
not emitted either. -/
structure Books (join : OuterJoin) (calls : List OuterJoinCall) : Prop where
  window : (outerJoin.final join calls).window = join.window
  holder : ∀ key arrival isMatched,
    (outerJoin.final join calls).pending.get? key = some (arrival, isMatched) →
    ∃ i, lastArrival calls key = some i ∧ calls[i]? = some (.arrive key arrival) ∧
      (isMatched = true → join.Matched calls i) ∧
      (isMatched = false → ¬ join.Matched calls i ∧ ¬ join.Nulled calls i)

theorem window_step (join : OuterJoin) (call : OuterJoinCall) :
    (outerJoin.step join call).2.window = join.window := by
  cases call with
  | arrive key time => rfl
  | matchKey key =>
    show (join.matchKey key).2.window = _
    rw [matchKey]
    split <;> rfl
  | advance watermark => rfl
  | emitUnmatched key watermark =>
    show (join.emitUnmatched key watermark).2.window = _
    rw [emitUnmatched]
    split <;> rfl

theorem pending_append_arrive (join : OuterJoin) (calls : List OuterJoinCall) (key : String)
    (time : ℤ) (k : String) :
    (outerJoin.final join (calls ++ [.arrive key time])).pending.get? k =
      if k = key then some (time, false)
      else (outerJoin.final join calls).pending.get? k := by
  rw [Machine.final_append_singleton]
  exact Dict.get?_set _ _ _ _

/-- **One arrival.** -/
theorem Books.arrive (h : join.Books calls) (key : String) (time : ℤ) :
    join.Books (calls ++ [.arrive key time]) := by
  have happend (i : ℕ) := append_arrive join calls key time i
  constructor
  · rw [Machine.final_append_singleton, window_step, h.window]
  · intro k arrival isMatched hget
    rw [pending_append_arrive] at hget
    rw [lastArrival_append_arrive]
    by_cases hk : k = key
    · subst hk
      rw [if_pos rfl] at hget ⊢
      obtain ⟨rfl, rfl⟩ := Prod.mk.inj (Option.some.inj hget)
      refine ⟨calls.length, rfl, List.getElem?_concat_length, nofun, fun _ => ⟨?_, ?_⟩⟩
      · rw [(happend _).1]
        exact fun hmatched => lt_irrefl _ hmatched.lt_length
      · rw [(happend _).2]
        exact fun hnulled => lt_irrefl _ hnulled.lt_length
    · rw [if_neg hk] at hget ⊢
      obtain ⟨i, hlast, hi, hmatched, hunmatched⟩ := h.holder k arrival isMatched hget
      refine ⟨i, hlast, getElem?_append_singleton_eq_some.mpr (.inl hi), ?_, ?_⟩
      · rwa [(happend i).1]
      · rwa [(happend i).1, (happend i).2]

/-- **Any other call.** -/
theorem Books.step (h : join.Books calls) (hcall : ∀ key time, call ≠ .arrive key time) :
    join.Books (calls ++ [call]) := by
  have hfinal := outerJoin.final_append_singleton join calls call
  have hold {i : ℕ} {c : OuterJoinCall} (hi : calls[i]? = some c) :
      (calls ++ [call])[i]? = some c :=
    getElem?_append_singleton_eq_some.mpr (.inl hi)
  constructor
  · rw [hfinal, window_step, h.window]
  · intro k arrival isMatched hget
    rw [hfinal] at hget
    rw [lastArrival_of_not_arrive hcall]
    cases ((outerJoin.final join calls).effects_of_not_arrive hcall).effect k with
    | matched arrival' before hmatched hnulled hbefore hafter =>
      obtain ⟨rfl, rfl⟩ := Prod.mk.inj (Option.some.inj (hafter.symm.trans hget))
      obtain ⟨i, hlast, hi, -⟩ := h.holder k _ _ hbefore
      exact ⟨i, hlast, hold hi, fun _ => (matched_append_singleton hlast).mpr (.inr hmatched),
        nofun⟩
    | nulled arrival' before watermark hmatched hnulled hbefore hafter =>
      cases hafter.symm.trans hget
    | none hmatched hnulled hsame =>
      obtain ⟨i, hlast, hi, hwas, hwasnot⟩ := h.holder k arrival isMatched (hsame.symm.trans hget)
      refine ⟨i, hlast, hold hi, fun his => (matched_append_singleton hlast).mpr (.inl (hwas his)),
        fun hisnot => ?_⟩
      rw [matched_append_singleton hlast, nulled_append_singleton hlast, or_iff_left hmatched,
        or_iff_left hnulled]
      exact hwasnot hisnot

/-- A join that no record has arrived at. -/
structure Fresh (join : OuterJoin) : Prop where
  pending : join.pending = ∅

theorem Fresh.books (h : join.Fresh) (calls : List OuterJoinCall) : join.Books calls := by
  induction calls using List.reverseRecOn with
  | nil =>
    refine ⟨rfl, fun key arrival isMatched hget => ?_⟩
    rw [Machine.final_nil, h.pending] at hget
    cases hget
  | append_singleton calls call ih =>
    by_cases hcall : ∃ key time, call = .arrive key time
    · obtain ⟨key, time, rfl⟩ := hcall
      exact ih.arrive key time
    · exact ih.step fun key time heq => hcall ⟨key, time, heq⟩

/-- In every run, nulls are emitted only once the window has closed. -/
theorem Fresh.nullsLate (h : join.Fresh) (calls : List OuterJoinCall) :
    Justified join.NullsLate calls := by
  rintro past call future - key hkey
  have hcall (k : String) (time : ℤ) : call ≠ .arrive k time := by
    rintro rfl
    exact List.not_mem_nil hkey
  cases ((outerJoin.final join past).effects_of_not_arrive hcall).effect key with
  | matched arrival before hmatched hnulled => exact absurd hkey hnulled
  | nulled arrival before watermark hmatched hnulled hbefore hafter hwatermark hlate =>
    obtain ⟨i, hlast, hi, -⟩ := (h.books past).holder key arrival before hbefore
    rw [(h.books past).window] at hlate
    exact ⟨i, arrival, watermark, hlast, hi, hwatermark, hlate⟩
  | none hmatched hnulled => exact absurd hkey hnulled

/-! ## Conservation -/

theorem arrived_append_singleton :
    Arrived (calls ++ [call]) i ↔ Arrived calls i ∨
      i = calls.length ∧ ∃ key time, call = .arrive key time := by
  simp only [Arrived, getElem?_append_singleton_eq_some]
  constructor
  · rintro ⟨key, time, hold | ⟨hi, hcall⟩⟩
    · exact .inl ⟨key, time, hold⟩
    · exact .inr ⟨hi, key, time, hcall⟩
  · rintro (⟨key, time, hold⟩ | ⟨hi, key, time, hcall⟩)
    · exact ⟨key, time, .inl hold⟩
    · exact ⟨key, time, .inr ⟨hi, hcall⟩⟩

theorem Arrived.lt_length (h : Arrived calls i) : i < calls.length := by
  obtain ⟨key, time, hi⟩ := h
  exact (List.getElem?_eq_some_iff.mp hi).1

/-- The records that are still waiting after an arrival are those of the other keys. -/
theorem waiting_append_arrive (hi : i < calls.length) {time : ℤ} :
    join.Waiting (calls ++ [.arrive key time]) i ↔ ∃ k ≠ key, ∃ arrival,
      lastArrival calls k = some i ∧
        (outerJoin.final join calls).pending.get? k = some (arrival, false) := by
  constructor
  · rintro ⟨k, arrival, hk, hpending⟩
    rw [lastArrival_append_arrive] at hk
    rw [pending_append_arrive] at hpending
    by_cases hne : k = key
    · rw [if_pos hne] at hk
      exact absurd (Option.some.inj hk) hi.ne'
    · rw [if_neg hne] at hk hpending
      exact ⟨k, hne, arrival, hk, hpending⟩
  · rintro ⟨k, hne, arrival, hk, hpending⟩
    refine ⟨k, arrival, ?_, ?_⟩
    · rw [lastArrival_append_arrive, if_neg hne, hk]
    · rw [pending_append_arrive, if_neg hne, hpending]

/-- **One arrival.** It keeps every record in one state exactly when none of its key is waiting. -/
theorem Books.oneState_arrive (h : join.Books calls) (hone : join.OneState calls) {time : ℤ} :
    (outerJoin.final join calls).Conserving (.arrive key time) ↔
      join.OneState (calls ++ [.arrive key time]) := by
  have happend (i : ℕ) := append_arrive join calls key time i
  constructor
  · intro hconserving i harrived
    rw [InOneState, (happend i).1, (happend i).2]
    rcases arrived_append_singleton.mp harrived with hi | ⟨rfl, -⟩
    · have hwaiting : join.Waiting (calls ++ [.arrive key time]) i ↔ join.Waiting calls i := by
        rw [waiting_append_arrive hi.lt_length]
        constructor
        · rintro ⟨k, -, hwaiting⟩
          exact ⟨k, hwaiting⟩
        · rintro ⟨k, arrival, hk, hpending⟩
          refine ⟨k, ?_, arrival, hk, hpending⟩
          rintro rfl
          exact hconserving arrival hpending
      rw [hwaiting]
      exact hone i hi
    · have hwaiting : join.Waiting (calls ++ [.arrive key time]) calls.length := by
        refine ⟨key, time, ?_, ?_⟩
        · rw [lastArrival_append_arrive, if_pos rfl]
        · rw [pending_append_arrive, if_pos rfl]
      exact .inl ⟨hwaiting, fun hmatched => lt_irrefl _ hmatched.lt_length,
        fun hnulled => lt_irrefl _ hnulled.lt_length⟩
  · -- the record that was waiting would be in no state
    intro hnext arrival hpending
    obtain ⟨i, hi, harrived, -, hunmatched⟩ := h.holder key arrival false hpending
    obtain ⟨hnotMatched, hnotNulled⟩ := hunmatched rfl
    have hgone : ¬ join.Waiting (calls ++ [.arrive key time]) i := by
      rw [waiting_append_arrive (lt_length_of_lastArrival hi)]
      rintro ⟨k, hne, -, hk, -⟩
      exact hne (eq_of_lastArrival hi hk)
    have hstate := hnext i (arrived_append_singleton.mpr (.inl ⟨key, arrival, harrived⟩))
    rw [InOneState, (happend i).1, (happend i).2] at hstate
    rcases hstate with ⟨hwaiting, -⟩ | ⟨-, hmatched, -⟩ | ⟨-, -, hnulled⟩
    · exact hgone hwaiting
    · exact hnotMatched hmatched
    · exact hnotNulled hnulled

/-- Any other call keeps the last record of a key in one state, if it emits no matched one. -/
theorem Books.inOneState_step (h : join.Books calls)
    (hcall : ∀ key time, call ≠ .arrive key time) (hkey : lastArrival calls key = some i)
    (hstate : join.InOneState calls i)
    (hnulls : ∀ arrival, (outerJoin.final join calls).pending.get? key = some (arrival, true) →
      key ∉ nulledBy (call, (outerJoin.step (outerJoin.final join calls) call).1)) :
    join.InOneState (calls ++ [call]) i := by
  rw [InOneState, matched_append_singleton hkey, nulled_append_singleton hkey,
    waiting_iff ((lastArrival_of_not_arrive hcall calls key).trans hkey),
    Machine.final_append_singleton]
  cases ((outerJoin.final join calls).effects_of_not_arrive hcall).effect key with
  | matched arrival before hmatched hnulled hbefore hafter =>
    obtain ⟨j, hj, -, hwas, hwasnot⟩ := h.holder key arrival before hbefore
    obtain rfl := Option.some.inj (hkey.symm.trans hj)
    rw [or_iff_left hnulled, hafter]
    refine .inr (.inl ⟨nofun, .inr hmatched, ?_⟩)
    cases before with
    | false => exact (hwasnot rfl).2
    | true =>
      rcases hstate with ⟨-, hnot, -⟩ | ⟨-, -, hnot⟩ | ⟨-, hnot, -⟩
      · exact absurd (hwas rfl) hnot
      · exact hnot
      · exact absurd (hwas rfl) hnot
  | nulled arrival before watermark hmatched hnulled hbefore hafter =>
    obtain ⟨j, hj, -, -, hwasnot⟩ := h.holder key arrival before hbefore
    obtain rfl := Option.some.inj (hkey.symm.trans hj)
    rw [or_iff_left hmatched, hafter]
    cases before with
    | false => exact .inr (.inr ⟨nofun, (hwasnot rfl).1, .inr hnulled⟩)
    | true => exact absurd hnulled (hnulls arrival hbefore)
  | none hmatched hnulled hsame =>
    rw [or_iff_left hmatched, or_iff_left hnulled, hsame, ← waiting_iff hkey]
    exact hstate

/-- Any other call leaves a record that is no longer the last of its key as it is. -/
theorem inOneState_append_of_forall_ne (hcall : ∀ key time, call ≠ .arrive key time)
    (hheld : ∀ key, lastArrival calls key ≠ some i) :
    join.InOneState (calls ++ [call]) i ↔ join.InOneState calls i := by
  have hgone : ¬ join.Waiting calls i := fun ⟨key, _, hkey, _⟩ => hheld key hkey
  have hgone' : ¬ join.Waiting (calls ++ [call]) i := fun ⟨key, _, hkey, _⟩ =>
    hheld key ((lastArrival_of_not_arrive hcall calls key).symm.trans hkey)
  have hmatched : join.Matched (calls ++ [call]) i ↔ join.Matched calls i :=
    underwent_append_of_forall_ne hheld
  have hnulled : join.Nulled (calls ++ [call]) i ↔ join.Nulled calls i :=
    underwent_append_of_forall_ne hheld
  rw [InOneState, InOneState, hmatched, hnulled, iff_of_false hgone' hgone]

/-- **Any other call.** It keeps every record in one state exactly when it emits no matched one. -/
theorem Books.oneState_step (h : join.Books calls) (hone : join.OneState calls)
    (hcall : ∀ key time, call ≠ .arrive key time) :
    (outerJoin.final join calls).Conserving call ↔ join.OneState (calls ++ [call]) := by
  rw [((outerJoin.final join calls).effects_of_not_arrive hcall).conserving_iff]
  constructor
  · intro hnulls i hi
    have hi : Arrived calls i := (arrived_append_singleton.mp hi).resolve_right
      fun ⟨_, key, time, heq⟩ => hcall key time heq
    by_cases hheld : ∃ key, lastArrival calls key = some i
    · obtain ⟨key, hkey⟩ := hheld
      exact h.inOneState_step hcall hkey (hone i hi) (hnulls key)
    · rw [inOneState_append_of_forall_ne hcall fun key hkey => hheld ⟨key, hkey⟩]
      exact hone i hi
  · -- the record that was matched would be emitted with a null too
    intro hnext key arrival hmatched hnulled
    obtain ⟨i, hkey, harrived, hwas, -⟩ := h.holder key arrival true hmatched
    have hstate := hnext i (arrived_append_singleton.mpr (.inl ⟨key, arrival, harrived⟩))
    rw [InOneState, matched_append_singleton hkey, nulled_append_singleton hkey] at hstate
    rcases hstate with ⟨-, hnot, -⟩ | ⟨-, -, hnot⟩ | ⟨-, hnot, -⟩
    · exact hnot (.inl (hwas rfl))
    · exact hnot (.inr hnulled)
    · exact hnot (.inl (hwas rfl))

/-- **When records are conserved.** In every run of a new join, each record that has arrived is at
any moment waiting, matched or emitted with a null, and only one of these, and nulls are emitted
only when the watermark is past the record's arrival by more than the window, if and only if no
record arrives for a key that has one waiting, and `emitUnmatched` is not called for a matched
record whose window has closed. -/
theorem conserving_iff_conserved (h : join.Fresh) (calls : List OuterJoinCall) :
    outerJoin.Guarded Conserving join calls ↔ ∀ past, past <+: calls → join.Conserved past := by
  have hconserved (past : List OuterJoinCall) : join.Conserved past ↔ join.OneState past :=
    ⟨Conserved.oneState, fun hone => ⟨hone, h.nullsLate past⟩⟩
  simp only [hconserved]
  rw [Machine.guarded_iff_justified]
  refine justified_iff_forall_past ?_ fun past call _ hone => ?_
  · rintro i ⟨key, time, hi⟩
    cases hi
  · by_cases hcall : ∃ key time, call = .arrive key time
    · obtain ⟨key, time, rfl⟩ := hcall
      exact (h.books past).oneState_arrive hone
    · exact (h.books past).oneState_step hone fun key time heq => hcall ⟨key, time, heq⟩

/-- A record that is matched, and one that is not. -/
theorem conserving_iff_conserved_two :
    outerJoin.Guarded Conserving { window := 100 }
        [.arrive "a" 10, .arrive "b" 20, .matchKey "a", .advance 500] ↔
      ∀ past, past <+: [.arrive "a" 10, .arrive "b" 20, .matchKey "a", .advance 500] →
        Conserved { window := 100 } past :=
  conserving_iff_conserved ⟨rfl⟩ _

/-- The second record for a key takes the place of the first, which is in no state; and a matched
record is emitted with a null. -/
theorem records_not_conserved :
    ¬ OneState { window := 100 } [.arrive "k" 0, .arrive "k" 5] ∧
      ¬ OneState { window := 100 } [.arrive "k" 0, .matchKey "k", .emitUnmatched "k" 200] := by
  have hbooks : ∀ calls, Books { window := 100 } calls := Fresh.books ⟨rfl⟩
  have hnone : OneState { window := 100 } [] := by
    rintro i ⟨key, time, hi⟩
    cases hi
  have hfirst : OneState { window := 100 } [.arrive "k" 0] :=
    ((hbooks []).oneState_arrive hnone).mp fun _ => nofun
  have hmatched : OneState { window := 100 } [.arrive "k" 0, .matchKey "k"] :=
    ((hbooks _).oneState_step hfirst fun _ _ heq => (by cases heq)).mp trivial
  constructor
  · intro hsecond
    exact ((hbooks _).oneState_arrive hfirst).mpr hsecond 0 rfl
  · intro hnulled
    have hopen : (200 : ℤ) ≤ 0 + 100 :=
      ((hbooks _).oneState_step hmatched fun _ _ heq => (by cases heq)).mpr hnulled 0 rfl
    exact absurd hopen (by decide)

end OuterJoin

end Relay
