import Mathlib.Data.Int.Order.Basic
import Relay.Errors
import Relay.Lib.Dict
import Relay.Lib.Machine

/-!
# The last stable offset

A read-committed consumer reads below the last stable offset: the high watermark, or the first
offset of the open transaction that began earliest if that is lower. It is known by what lies at
or below it (`le_lastStableOffset_iff`), and every fact below is derived from that.

While a transaction is open, nothing at or past its first offset is visible. Visibility is not
permanent: a transaction may begin at any offset up to the watermark, and one that begins below
the last stable offset lowers it to where it begins. Nothing else ever lowers it.

## Scope

The notes on the gap between the two offsets are left out. The gap itself is here.

## Main definitions

* `LastStableOffset`, with `begin`, `resolve` and `lastStableOffset`
* `IsolationLevel`, `PartitionOffsets`, `readableCeiling`
* `Visibility`: what holds of every run from a state

## Main results

* `lastStableOffset_visibility`
* `LastStableOffset.lt_readableCeiling_iff`: a read-committed consumer reads what is visible
-/

namespace Relay

/-- The watermark, and the first offset of each transaction that is still open. -/
structure LastStableOffset where
  highWatermark : ℤ
  openTransactions : Dict String ℤ := ∅
  deriving DecidableEq

namespace LastStableOffset

/-- `begin`. -/
def begin (stable : LastStableOffset) (txnId : String) (firstOffset : ℤ) :
    Except RelayError Unit × LastStableOffset :=
  if firstOffset > stable.highWatermark then
    (.error (.invalid (s!"transaction '{txnId}' begins at {firstOffset}, past the "
      ++ s!"high watermark {stable.highWatermark}; it cannot start past "
      ++ "records that do not exist")), stable)
  else (.ok (), { stable with openTransactions := stable.openTransactions.set txnId firstOffset })

/-- `resolve`. -/
def resolve (stable : LastStableOffset) (txnId : String) :
    Except RelayError Unit × LastStableOffset :=
  match stable.openTransactions.get? txnId with
  | none => (.error (.missing s!"transaction '{txnId}' is not open"), stable)
  | some _ => (.ok (), { stable with openTransactions := stable.openTransactions.erase txnId })

/-- `last_stable_offset`. -/
def lastStableOffset (stable : LastStableOffset) : ℤ :=
  match stable.openTransactions.values with
  | [] => stable.highWatermark
  | values => values.foldl min stable.highWatermark

/-- `is_visible_to_read_committed`. -/
def isVisibleToReadCommitted (stable : LastStableOffset) (offset : ℤ) : Bool :=
  offset < stable.lastStableOffset

/-- `withheld_gap`. -/
def withheldGap (stable : LastStableOffset) : ℤ := stable.highWatermark - stable.lastStableOffset

theorem le_foldl_min_iff {l : List ℤ} {a o : ℤ} :
    o ≤ l.foldl min a ↔ o ≤ a ∧ ∀ x ∈ l, o ≤ x := by
  induction l generalizing a with
  | nil => simp
  | cons x l ih => rw [List.foldl_cons, ih, Int.le_min, List.forall_mem_cons, and_assoc]

/-- What lies at or below the last stable offset. -/
theorem le_lastStableOffset_iff {stable : LastStableOffset} {o : ℤ} :
    o ≤ stable.lastStableOffset ↔ o ≤ stable.highWatermark ∧
      ∀ txnId firstOffset, stable.openTransactions.get? txnId = some firstOffset →
        o ≤ firstOffset := by
  have hfold : stable.lastStableOffset =
      stable.openTransactions.values.foldl min stable.highWatermark := by
    rw [lastStableOffset]
    split
    · next hnil => rw [hnil, List.foldl_nil]
    · rfl
  rw [hfold, le_foldl_min_iff]
  simp only [Dict.mem_values_iff, forall_exists_index]
  exact and_congr_right fun _ => forall_comm

theorem lastStableOffset_le_highWatermark (stable : LastStableOffset) :
    stable.lastStableOffset ≤ stable.highWatermark :=
  (le_lastStableOffset_iff.mp le_rfl).1

/-- An open transaction holds the last stable offset at or below its first offset. -/
theorem lastStableOffset_le_of_open {stable : LastStableOffset} {txnId : String} {firstOffset : ℤ}
    (h : stable.openTransactions.get? txnId = some firstOffset) :
    stable.lastStableOffset ≤ firstOffset :=
  (le_lastStableOffset_iff.mp le_rfl).2 txnId firstOffset h

end LastStableOffset

/-! ## Runs -/

/-- The calls, and the watermark as its owner moves it. -/
inductive StableCall where
  | begin (txnId : String) (firstOffset : ℤ)
  | resolve (txnId : String)
  | advance (highWatermark : ℤ)
  deriving DecidableEq

/-- The tracker as a component. -/
def stableMachine : Machine LastStableOffset StableCall (Except RelayError Unit) where
  step stable
    | .begin txnId firstOffset => stable.begin txnId firstOffset
    | .resolve txnId => stable.resolve txnId
    | .advance highWatermark => (.ok (), { stable with highWatermark })

/-- The call does not lower the watermark. -/
def Advances (stable : LastStableOffset) : StableCall → Prop
  | .advance highWatermark => stable.highWatermark ≤ highWatermark
  | _ => True

/-- The call begins no transaction below the last stable offset. -/
def BeginsStable (stable : LastStableOffset) : StableCall → Prop
  | .begin _ firstOffset => stable.lastStableOffset ≤ firstOffset
  | _ => True

/-- The event resolved the transaction, or began it again. -/
def Settles (txnId : String) : StableCall × Except RelayError Unit → Prop
  | (.begin other _, .ok _) => other = txnId
  | (.resolve other, .ok _) => other = txnId
  | _ => False

/-- What one call can do. -/
inductive StableStep (stable : LastStableOffset) :
    StableCall → Except RelayError Unit → LastStableOffset → Prop
  | refused {call : StableCall} {e : RelayError} : StableStep stable call (.error e) stable
  | begun {txnId : String} {firstOffset : ℤ} (hle : firstOffset ≤ stable.highWatermark) :
      StableStep stable (.begin txnId firstOffset) (.ok ())
        { stable with openTransactions := stable.openTransactions.set txnId firstOffset }
  | resolved {txnId : String} :
      StableStep stable (.resolve txnId) (.ok ())
        { stable with openTransactions := stable.openTransactions.erase txnId }
  | advanced {highWatermark : ℤ} :
      StableStep stable (.advance highWatermark) (.ok ()) { stable with highWatermark }

theorem stableStep (stable : LastStableOffset) (call : StableCall) :
    StableStep stable call (stableMachine.step stable call).1
      (stableMachine.step stable call).2 := by
  cases call with
  | begin txnId firstOffset =>
    simp only [stableMachine, LastStableOffset.begin]
    split
    · exact .refused
    · next hle => exact .begun (not_lt.mp hle)
  | resolve txnId =>
    simp only [stableMachine, LastStableOffset.resolve]
    split
    · exact .refused
    · exact .resolved
  | advance highWatermark => exact .advanced

section Step

variable {stable : LastStableOffset} {txnId : String} {firstOffset : ℤ}

/-- A transaction that begins keeps everything visible below where it begins. -/
theorem le_lastStableOffset_begun {o : ℤ} (hstable : o ≤ stable.lastStableOffset)
    (hfirst : o ≤ firstOffset) : o ≤ ({ stable with
      openTransactions := stable.openTransactions.set txnId firstOffset } :
        LastStableOffset).lastStableOffset := by
  obtain ⟨hwatermark, hopen⟩ := LastStableOffset.le_lastStableOffset_iff.mp hstable
  refine LastStableOffset.le_lastStableOffset_iff.mpr ⟨hwatermark, ?_⟩
  exact Dict.forall_get?_set hfirst fun other first _ hget => hopen other first hget

theorem lastStableOffset_le_resolved : stable.lastStableOffset ≤ ({ stable with
    openTransactions := stable.openTransactions.erase txnId } :
      LastStableOffset).lastStableOffset := by
  obtain ⟨hwatermark, hopen⟩ := LastStableOffset.le_lastStableOffset_iff.mp le_rfl
  refine LastStableOffset.le_lastStableOffset_iff.mpr ⟨hwatermark, ?_⟩
  exact Dict.forall_get?_erase fun other first _ hget => hopen other first hget

theorem lastStableOffset_le_advanced {highWatermark : ℤ}
    (h : stable.highWatermark ≤ highWatermark) :
    stable.lastStableOffset ≤ ({ stable with highWatermark } :
      LastStableOffset).lastStableOffset := by
  obtain ⟨hwatermark, hopen⟩ := LastStableOffset.le_lastStableOffset_iff.mp le_rfl
  exact LastStableOffset.le_lastStableOffset_iff.mpr ⟨hwatermark.trans h, hopen⟩

end Step

/-- The last stable offset moves up, or a transaction that begins below it lowers it to where it
begins. -/
theorem StableStep.lastStableOffset_le_or {stable stable' : LastStableOffset} {call : StableCall}
    {answer : Except RelayError Unit} (h : StableStep stable call answer stable')
    (hadvances : Advances stable call) :
    stable.lastStableOffset ≤ stable'.lastStableOffset ∨
      ∃ txnId firstOffset, call = .begin txnId firstOffset ∧ answer = .ok () ∧
        firstOffset < stable.lastStableOffset ∧ stable'.lastStableOffset = firstOffset := by
  cases h with
  | refused => exact .inl le_rfl
  | resolved => exact .inl lastStableOffset_le_resolved
  | advanced => exact .inl (lastStableOffset_le_advanced hadvances)
  | @begun txnId firstOffset hle =>
    rcases le_or_gt stable.lastStableOffset firstOffset with hge | hlt
    · exact .inl (le_lastStableOffset_begun le_rfl hge)
    · refine .inr ⟨txnId, firstOffset, rfl, rfl, hlt, le_antisymm ?_ ?_⟩
      · exact LastStableOffset.lastStableOffset_le_of_open (Dict.get?_set_self _ _ _)
      · exact le_lastStableOffset_begun hlt.le le_rfl

/-- A transaction stays open where it began until it is settled. -/
theorem StableStep.get?_eq {stable stable' : LastStableOffset} {call : StableCall}
    {answer : Except RelayError Unit} (h : StableStep stable call answer stable')
    {txnId : String} (hsettles : ¬ Settles txnId (call, answer)) :
    stable'.openTransactions.get? txnId = stable.openTransactions.get? txnId := by
  cases h with
  | refused => rfl
  | advanced => rfl
  | begun => exact Dict.get?_set_of_ne _ _ fun heq => hsettles heq.symm
  | resolved =>
    rw [Dict.get?_erase, if_neg fun heq => hsettles heq.symm]

/-- What holds of every run from a state, whatever transactions are open in it. -/
structure Visibility (stable : LastStableOffset) : Prop where
  /-- Once a transaction has begun, and until it is resolved or begun again, nothing at or past
  its first offset is stable. -/
  withheld : ∀ txnId firstOffset calls, (stable.begin txnId firstOffset).1 = .ok () →
    (∀ event ∈ stableMachine.trace (stable.begin txnId firstOffset).2 calls,
      ¬ Settles txnId event) →
    (stableMachine.final (stable.begin txnId firstOffset).2 calls).lastStableOffset ≤ firstOffset
  /-- The last stable offset decreases only when a transaction begins below it, and then to where
  that transaction begins. -/
  lowered : ∀ calls call, stableMachine.Guarded Advances stable (calls ++ [call]) →
    (stableMachine.final stable (calls ++ [call])).lastStableOffset <
        (stableMachine.final stable calls).lastStableOffset →
    ∃ txnId firstOffset, call = .begin txnId firstOffset ∧
      firstOffset < (stableMachine.final stable calls).lastStableOffset ∧
      (stableMachine.final stable (calls ++ [call])).lastStableOffset = firstOffset
  /-- While none does, what was visible stays visible. -/
  retained : ∀ calls,
    stableMachine.Guarded (fun s call => Advances s call ∧ BeginsStable s call) stable calls →
    stable.lastStableOffset ≤ (stableMachine.final stable calls).lastStableOffset ∧
      ∀ offset, stable.isVisibleToReadCommitted offset = true →
        (stableMachine.final stable calls).isVisibleToReadCommitted offset = true

theorem withheld_of_begun {stable : LastStableOffset} {txnId : String} {firstOffset : ℤ}
    {calls : List StableCall} (hbegun : (stable.begin txnId firstOffset).1 = .ok ())
    (hopen : ∀ event ∈ stableMachine.trace (stable.begin txnId firstOffset).2 calls,
      ¬ Settles txnId event) :
    (stableMachine.final (stable.begin txnId firstOffset).2 calls).lastStableOffset ≤
      firstOffset := by
  have hbegan : (stable.begin txnId firstOffset).2.openTransactions.get? txnId =
      some firstOffset := by
    rw [LastStableOffset.begin] at hbegun ⊢
    split at hbegun
    · cases hbegun
    · next hle => rw [if_neg hle]; exact Dict.get?_set_self _ _ _
  have hheld : (stableMachine.final (stable.begin txnId firstOffset).2 calls).openTransactions.get?
      txnId = some firstOffset := by
    refine Machine.invariant (P := fun s => s.openTransactions.get? txnId = some firstOffset) hbegan
      (fun s call hget hsettles => ?_) (stableMachine.guarded_iff_forall_mem_trace.mpr hopen)
    rw [(stableStep s call).get?_eq hsettles, hget]
  exact LastStableOffset.lastStableOffset_le_of_open hheld

/-- **What a read-committed consumer may rely on**, in every run from every state. -/
theorem lastStableOffset_visibility (stable : LastStableOffset) : Visibility stable := by
  constructor
  case withheld => exact fun _ _ _ hbegun hopen => withheld_of_begun hbegun hopen
  case lowered =>
    intro calls call hguarded hlower
    obtain ⟨-, hadvances, -⟩ := (stableMachine.guarded_append _ _ _ _).mp hguarded
    rw [Machine.final_append_singleton] at hlower ⊢
    rcases (stableStep _ call).lastStableOffset_le_or hadvances with hle | ⟨t, f, hcall, -, h⟩
    · exact absurd hlower hle.not_gt
    · exact ⟨t, f, hcall, h⟩
  case retained =>
    intro calls hguarded
    have hmono : stable.lastStableOffset ≤ (stableMachine.final stable calls).lastStableOffset := by
      refine Machine.monotone (f := LastStableOffset.lastStableOffset) (fun s call hok => ?_)
        hguarded
      rcases (stableStep s call).lastStableOffset_le_or hok.1 with hle | ⟨t, f, rfl, -, hlt, -⟩
      · exact hle
      · exact absurd hok.2 (not_le.mpr hlt)
    refine ⟨hmono, fun offset hvisible => ?_⟩
    rw [LastStableOffset.isVisibleToReadCommitted, decide_eq_true_eq] at hvisible ⊢
    exact hvisible.trans_le hmono

/-- A transaction that begins at `40` under a watermark of `100` takes back what was visible, and
once it begins again at `60` the offsets from `40` on are visible while it is open. -/
theorem lastStableOffset_retreats :
    (¬ (⟨100, ∅⟩ : LastStableOffset).lastStableOffset ≤
        (stableMachine.final ⟨100, ∅⟩ [.begin "t" 40]).lastStableOffset) ∧
      ¬ (stableMachine.final ⟨100, ∅⟩ [.begin "t" 40, .begin "t" 60]).lastStableOffset ≤ 40 := by
  decide

/-! ## Isolation levels -/

/-- How far a consumer reads into uncommitted territory. -/
inductive IsolationLevel where
  | readUncommitted
  | readCommitted
  deriving DecidableEq

/-- The level a consumer declares, by its name. -/
def IsolationLevel.parse (level : String) : Except RelayError IsolationLevel :=
  if level = "read-uncommitted" then .ok .readUncommitted
  else if level = "read-committed" then .ok .readCommitted
  else .error (.invalid s!"unknown isolation level {level}")

/-- The offsets that bound each level. -/
structure PartitionOffsets where
  highWatermark : ℤ
  lastStableOffset : ℤ
  /-- Committed is a subset of replicated. -/
  stable_le : lastStableOffset ≤ highWatermark

/-- `__post_init__`: the constructor refuses a stable offset past the watermark. -/
def PartitionOffsets.make (highWatermark lastStableOffset : ℤ) :
    Except RelayError PartitionOffsets :=
  if h : lastStableOffset > highWatermark then
    .error (.invalid ("the last stable offset cannot exceed the high "
      ++ "watermark; committed is a subset of replicated"))
  else .ok ⟨highWatermark, lastStableOffset, not_lt.mp h⟩

/-- `readable_ceiling`. -/
def readableCeiling (level : String) (offsets : PartitionOffsets) :
    Except RelayError (ℤ × String) :=
  match IsolationLevel.parse level with
  | .error e => .error e
  | .ok .readUncommitted => .ok (offsets.highWatermark,
      "up to the high watermark; fast, but a record inside "
        ++ "a transaction that later aborts is one the consumer acted on that un-happened")
  | .ok .readCommitted => .ok (offsets.lastStableOffset,
      "up to the last stable offset; never sees a record whose "
        ++ "transaction might abort, at the cost of blocking behind a "
        ++ "long-running open transaction")

/-- The offsets of a tracker always pass the check. -/
def LastStableOffset.offsets (stable : LastStableOffset) : PartitionOffsets :=
  ⟨stable.highWatermark, stable.lastStableOffset, stable.lastStableOffset_le_highWatermark⟩

theorem LastStableOffset.make_offsets (stable : LastStableOffset) :
    PartitionOffsets.make stable.highWatermark stable.lastStableOffset = .ok stable.offsets :=
  dif_neg (not_lt.mpr stable.lastStableOffset_le_highWatermark)

/-- A read-committed consumer of a tracked partition reads exactly what is visible to it. -/
theorem LastStableOffset.lt_readableCeiling_iff (stable : LastStableOffset)
    {offsets : PartitionOffsets} {ceiling : ℤ} {why : String}
    (hmake : PartitionOffsets.make stable.highWatermark stable.lastStableOffset = .ok offsets)
    (h : readableCeiling "read-committed" offsets = .ok (ceiling, why)) (offset : ℤ) :
    offset < ceiling ↔ stable.isVisibleToReadCommitted offset = true := by
  rw [stable.make_offsets, Except.ok.injEq] at hmake
  subst hmake
  have hceiling : ceiling = stable.lastStableOffset := by
    cases h
    rfl
  rw [hceiling, LastStableOffset.isVisibleToReadCommitted, decide_eq_true_eq]

end Relay
