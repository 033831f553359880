import Mathlib.Algebra.Order.Ring.Int
import Mathlib.Order.Bounds.Basic
import Relay.Errors
import Relay.Lib.Dict
import Relay.Lib.Machine

/-!
# Connector offsets

A source connector reads positions of an external system and writes what it finds to the broker; a
sink connector consumes offsets of the broker and writes to an external system. Both may commit a
position only when everything up to it has been acknowledged by the other side, and both keep their
books in the same way: the positions in flight, with a mark for those acknowledged, the committed
position and the last one read. `InflightOffsets` is that book, and the two connectors differ in the
words they use.

Acknowledgements arrive in any order, and committing takes the acknowledged positions off the book
from the front. So what is on the book are the positions read above the committed one, with the
acknowledgements they have had (`OnBook`), and a commit ends in front of the first position that has
had none.

## Scope

The position to resume from is the committed one, and has no definition of its own. The reports of
the two connectors are left out.

## Main definitions

* `InflightOffsets`, with `advance`, `mark` and `commit`
* `ConnectorOffsets.read` and `acknowledge`, `SinkConnector.consume` and `confirmWrite`
* `NeverSkips`: what a connector promises about the position it restarts from

## Main results

* `connectors_neverSkip`: both connectors keep the promise
-/

namespace Relay

/-- Positions in flight, with a mark for those acknowledged. -/
structure InflightOffsets where
  inflight : Dict ℤ Bool := ∅
  committed : ℤ := -1
  /-- `latest_read` of a source, `consumed` of a sink. -/
  latest : ℤ := -1

namespace InflightOffsets

/-- Take a position on the book. -/
def advance (refusal : ℤ → ℤ → String) (offsets : InflightOffsets) (position : ℤ) :
    Except RelayError Unit × InflightOffsets :=
  if position ≤ offsets.latest then (.error (.invalid (refusal position offsets.latest)), offsets)
  else (.ok (), { offsets with
    inflight := offsets.inflight.set position false
    latest := position })

/-- Mark a position as acknowledged. -/
def mark (refusal : ℤ → String) (offsets : InflightOffsets) (position : ℤ) :
    Except RelayError Unit × InflightOffsets :=
  if position ∉ offsets.inflight.keys then (.error (.invalid (refusal position)), offsets)
  else (.ok (), { offsets with inflight := offsets.inflight.set position true })

/-- The loop of `commit`. -/
def commitLoop (offsets : InflightOffsets) : List ℤ → InflightOffsets
  | [] => offsets
  | pos :: positions =>
    if offsets.inflight.getD pos false then
      commitLoop { offsets with
        committed := pos
        inflight := offsets.inflight.erase pos } positions
    else offsets

/-- `commit`: advance over the contiguous acknowledged prefix. -/
def commit (offsets : InflightOffsets) : ℤ × InflightOffsets :=
  let positions := offsets.inflight.keys.mergeSort fun a b => a ≤ b
  let result := offsets.commitLoop positions
  (result.committed, result)

end InflightOffsets

/-- The offsets of a source connector. -/
abbrev ConnectorOffsets := InflightOffsets

/-- `read`. -/
def ConnectorOffsets.read : ConnectorOffsets → ℤ → Except RelayError Unit × ConnectorOffsets :=
  InflightOffsets.advance fun sourcePosition latestRead =>
    s!"source position {sourcePosition} does not advance past "
      ++ s!"the latest read {latestRead}; positions only move "
      ++ "forward"

/-- `acknowledge`. -/
def ConnectorOffsets.acknowledge :
    ConnectorOffsets → ℤ → Except RelayError Unit × ConnectorOffsets :=
  InflightOffsets.mark fun sourcePosition =>
    s!"no in-flight record at source position {sourcePosition}"

/-- A sink connector. -/
abbrev SinkConnector := InflightOffsets

/-- `consume`. -/
def SinkConnector.consume : SinkConnector → ℤ → Except RelayError Unit × SinkConnector :=
  InflightOffsets.advance fun offset consumed =>
    s!"offset {offset} does not advance past the consumed "
      ++ s!"{consumed}; a consumer reads forward"

/-- `confirm_write`. -/
def SinkConnector.confirmWrite : SinkConnector → ℤ → Except RelayError Unit × SinkConnector :=
  InflightOffsets.mark fun offset => s!"offset {offset} was never consumed to be confirmed"

/-! ## Runs -/

/-- A call to a connector: a position is read or consumed, acknowledged or confirmed, or everything
possible is committed. -/
inductive OffsetCall where
  | read (position : ℤ)
  | acknowledge (position : ℤ)
  | commit

/-- What a call answers. -/
inductive OffsetAnswer where
  | returned (answer : Except RelayError Unit)
  | committed (position : ℤ)

/-- A connector with its two ways of refusing. -/
def offsetTracker (readRefusal : ℤ → ℤ → String) (markRefusal : ℤ → String) :
    Machine InflightOffsets OffsetCall OffsetAnswer where
  step offsets
    | .read position => (offsets.advance readRefusal position).map .returned id
    | .acknowledge position => (offsets.mark markRefusal position).map .returned id
    | .commit => offsets.commit.map .committed id

/-- The source connector as a component. -/
def connectorOffsets : Machine ConnectorOffsets OffsetCall OffsetAnswer where
  step offsets
    | .read position => (ConnectorOffsets.read offsets position).map .returned id
    | .acknowledge position => (ConnectorOffsets.acknowledge offsets position).map .returned id
    | .commit => (InflightOffsets.commit offsets).map .committed id

/-- The sink connector as a component. -/
def sinkConnector : Machine SinkConnector OffsetCall OffsetAnswer where
  step connector
    | .read offset => (SinkConnector.consume connector offset).map .returned id
    | .acknowledge offset => (SinkConnector.confirmWrite connector offset).map .returned id
    | .commit => (InflightOffsets.commit connector).map .committed id

/-- The position was read, by a call that was not refused. -/
def HasRead (events : List (OffsetCall × OffsetAnswer)) (position : ℤ) : Prop :=
  (.read position, .returned (.ok ())) ∈ events

/-- The position was acknowledged, by a call that was not refused. -/
def HasAcknowledged (events : List (OffsetCall × OffsetAnswer)) (position : ℤ) : Prop :=
  (.acknowledge position, .returned (.ok ())) ∈ events

/-- The position was read, and it and all smaller positions read were acknowledged. -/
def AcknowledgedUpTo (events : List (OffsetCall × OffsetAnswer)) (position : ℤ) : Prop :=
  HasRead events position ∧ ∀ p ≤ position, HasRead events p → HasAcknowledged events p

/-- In every run the committed position does not decrease, everything read up to it has been
acknowledged, and right after a commit it is the largest position of which that is true, or `-1` if
there is none. -/
def NeverSkips (m : Machine InflightOffsets OffsetCall OffsetAnswer) : Prop :=
  ∀ calls, (∀ past, past <+: calls → (m.final {} past).committed ≤ (m.final {} calls).committed) ∧
    (∀ p ≤ (m.final {} calls).committed,
      HasRead (m.trace {} calls) p → HasAcknowledged (m.trace {} calls) p) ∧
    ∀ past, calls = past ++ [.commit] →
      IsGreatest {p | AcknowledgedUpTo (m.trace {} calls) p} (m.final {} calls).committed ∨
        (m.final {} calls).committed = -1 ∧ ∀ p, ¬ AcknowledgedUpTo (m.trace {} calls) p

/-! ## The book -/

section Events

variable {events : List (OffsetCall × OffsetAnswer)} {position p : ℤ}

theorem hasRead_append_read : HasRead (events ++ [(.read position, .returned (.ok ()))]) p ↔
    HasRead events p ∨ p = position := by
  simp [HasRead]

theorem hasAcknowledged_append_acknowledge :
    HasAcknowledged (events ++ [(.acknowledge position, .returned (.ok ()))]) p ↔
      HasAcknowledged events p ∨ p = position := by
  simp [HasAcknowledged]

theorem hasRead_append_of_ne {e : OffsetCall × OffsetAnswer}
    (h : ∀ position, e ≠ (.read position, .returned (.ok ()))) :
    HasRead (events ++ [e]) p ↔ HasRead events p := by
  simp [HasRead, (h p).symm]

theorem hasAcknowledged_append_of_ne {e : OffsetCall × OffsetAnswer}
    (h : ∀ position, e ≠ (.acknowledge position, .returned (.ok ()))) :
    HasAcknowledged (events ++ [e]) p ↔ HasAcknowledged events p := by
  simp [HasAcknowledged, (h p).symm]

theorem acknowledgedUpTo_append_of_ne {e : OffsetCall × OffsetAnswer}
    (hread : ∀ position, e ≠ (.read position, .returned (.ok ())))
    (hack : ∀ position, e ≠ (.acknowledge position, .returned (.ok ()))) :
    AcknowledgedUpTo (events ++ [e]) p ↔ AcknowledgedUpTo events p := by
  simp only [AcknowledgedUpTo, hasRead_append_of_ne hread, hasAcknowledged_append_of_ne hack]

end Events

/-- What is in flight are the positions read above the committed one, marked if they were
acknowledged; and everything read up to the committed one was. -/
structure OnBook (events : List (OffsetCall × OffsetAnswer)) (offsets : InflightOffsets) :
    Prop where
  hasRead : ∀ p, HasRead events p → -1 < p ∧ p ≤ offsets.latest
  le_latest : offsets.committed ≤ offsets.latest
  inflight : ∀ p b, offsets.inflight.get? p = some b ↔
    HasRead events p ∧ offsets.committed < p ∧ (b = true ↔ HasAcknowledged events p)
  committed : offsets.committed = -1 ∨ HasRead events offsets.committed
  acknowledged : ∀ p ≤ offsets.committed, HasRead events p → HasAcknowledged events p
  hasRead_of_acknowledged : ∀ p, HasAcknowledged events p → HasRead events p

namespace OnBook

variable {events : List (OffsetCall × OffsetAnswer)} {offsets : InflightOffsets}

/-- Nothing below the first position is committed. -/
theorem neg_one_le (h : OnBook events offsets) : -1 ≤ offsets.committed := by
  rcases h.committed with heq | hread
  · exact heq.symm.le
  · exact (h.hasRead _ hread).1.le

/-- In flight are the positions that were read and are past the committed one. -/
theorem mem_keys_iff (h : OnBook events offsets) {p : ℤ} :
    p ∈ offsets.inflight.keys ↔ HasRead events p ∧ offsets.committed < p := by
  rw [Dict.mem_keys_iff]
  constructor
  · rintro ⟨b, hb⟩
    obtain ⟨hread, hlt, -⟩ := (h.inflight p b).mp hb
    exact ⟨hread, hlt⟩
  · rintro ⟨hread, hlt⟩
    by_cases hack : HasAcknowledged events p
    · exact ⟨true, (h.inflight p true).mpr ⟨hread, hlt, iff_of_true rfl hack⟩⟩
    · exact ⟨false, (h.inflight p false).mpr ⟨hread, hlt, iff_of_false (by simp) hack⟩⟩

/-- A position in flight is marked if it was acknowledged. -/
theorem getD_iff (h : OnBook events offsets) {p : ℤ} (hp : p ∈ offsets.inflight.keys) :
    offsets.inflight.getD p false = true ↔ HasAcknowledged events p := by
  obtain ⟨b, hb⟩ := (Dict.mem_keys_iff _).mp hp
  rw [Dict.getD, hb]
  exact ((h.inflight p b).mp hb).2.2

/-- An event that neither reads nor acknowledges. -/
theorem append_of_ne (h : OnBook events offsets) {e : OffsetCall × OffsetAnswer}
    (hread : ∀ position, e ≠ (.read position, .returned (.ok ())))
    (hack : ∀ position, e ≠ (.acknowledge position, .returned (.ok ()))) :
    OnBook (events ++ [e]) offsets := by
  refine ⟨?_, h.le_latest, ?_, ?_, ?_, ?_⟩
  all_goals simp only [hasRead_append_of_ne hread, hasAcknowledged_append_of_ne hack]
  · exact h.hasRead
  · exact h.inflight
  · exact h.committed
  · exact h.acknowledged
  · exact h.hasRead_of_acknowledged

theorem read (h : OnBook events offsets) {position : ℤ} (hahead : offsets.latest < position) :
    OnBook (events ++ [(.read position, .returned (.ok ()))]) { offsets with
      inflight := offsets.inflight.set position false
      latest := position } := by
  have hcommitted := h.neg_one_le
  have hlatest := h.le_latest
  have hnotRead : ¬ HasRead events position := fun hread => by
    have hle := (h.hasRead position hread).2
    omega
  have hnotAck : ¬ HasAcknowledged events position := fun hack =>
    hnotRead (h.hasRead_of_acknowledged position hack)
  have hack : ∀ p, HasAcknowledged (events ++ [(.read position, .returned (.ok ()))]) p ↔
      HasAcknowledged events p := fun p => hasAcknowledged_append_of_ne fun _ => by simp
  refine ⟨fun p hp => ?_, ?_, fun p b => ?_, ?_, fun p hle hp => ?_, fun p hp => ?_⟩
  · rcases hasRead_append_read.mp hp with hp | rfl
    · have hread := h.hasRead p hp
      exact ⟨hread.1, (hread.2.trans_lt hahead).le⟩
    · exact ⟨by omega, le_rfl⟩
  · exact (hlatest.trans_lt hahead).le
  · show (offsets.inflight.set position false).get? p = some b ↔ _ ∧ offsets.committed < p ∧ _
    rw [Dict.get?_set, hasRead_append_read, hack]
    split
    · next hp =>
      subst hp
      cases b with
      | true => simp [hnotAck]
      | false => simp [hnotAck, hlatest.trans_lt hahead]
    · next hne => simp [hne, h.inflight]
  · exact h.committed.imp_right fun hread => hasRead_append_read.mpr (Or.inl hread)
  · rw [hack]
    rcases hasRead_append_read.mp hp with hp | rfl
    · exact h.acknowledged p hle hp
    · exact absurd (hle.trans hlatest) (not_le.mpr hahead)
  · exact hasRead_append_read.mpr (Or.inl (h.hasRead_of_acknowledged p ((hack p).mp hp)))

theorem mark (h : OnBook events offsets) {position : ℤ}
    (hposition : position ∈ offsets.inflight.keys) :
    OnBook (events ++ [(.acknowledge position, .returned (.ok ()))])
      { offsets with inflight := offsets.inflight.set position true } := by
  obtain ⟨hposition, habove⟩ := h.mem_keys_iff.mp hposition
  have hread : ∀ p, HasRead (events ++ [(.acknowledge position, .returned (.ok ()))]) p ↔
      HasRead events p := fun p => hasRead_append_of_ne fun _ => by simp
  refine ⟨fun p hp => ?_, h.le_latest, fun p b => ?_, ?_, fun p hle hp => ?_, fun p hp => ?_⟩
  · exact h.hasRead p ((hread p).mp hp)
  · show (offsets.inflight.set position true).get? p = some b ↔ _ ∧ offsets.committed < p ∧ _
    rw [Dict.get?_set, hread, hasAcknowledged_append_acknowledge]
    split
    · next hp =>
      subst hp
      cases b with
      | true => simp [hposition, habove]
      | false => simp
    · next hne => simp [hne, h.inflight]
  · exact h.committed.imp_right (hread _).mpr
  · exact hasAcknowledged_append_acknowledge.mpr
      (Or.inl (h.acknowledged p hle ((hread p).mp hp)))
  · rw [hread]
    rcases hasAcknowledged_append_acknowledge.mp hp with hp | rfl
    · exact h.hasRead_of_acknowledged p hp
    · exact hposition

/-- The first position in flight is committed, if it is acknowledged. -/
theorem commitFirst (h : OnBook events offsets) {pos : ℤ} (hpos : pos ∈ offsets.inflight.keys)
    (hfirst : ∀ p ∈ offsets.inflight.keys, pos ≤ p) (hack : HasAcknowledged events pos) :
    OnBook events { offsets with
      committed := pos
      inflight := offsets.inflight.erase pos } := by
  obtain ⟨hread, habove⟩ := h.mem_keys_iff.mp hpos
  refine ⟨h.hasRead, (h.hasRead pos hread).2, fun p b => ?_, Or.inr hread, fun p hle hp => ?_,
    h.hasRead_of_acknowledged⟩
  · show (offsets.inflight.erase pos).get? p = some b ↔ _ ∧ pos < p ∧ _
    rw [Dict.get?_erase]
    split
    · next hp =>
      subst hp
      simp
    · next hne =>
      rw [h.inflight]
      constructor
      · rintro ⟨hp, hlt, hb⟩
        exact ⟨hp, lt_of_le_of_ne (hfirst p (h.mem_keys_iff.mpr ⟨hp, hlt⟩)) (Ne.symm hne), hb⟩
      · rintro ⟨hp, hlt, hb⟩
        exact ⟨hp, habove.trans hlt, hb⟩
  · by_cases hold : p ≤ offsets.committed
    · exact h.acknowledged p hold hp
    · obtain rfl := le_antisymm hle (hfirst p (h.mem_keys_iff.mpr ⟨hp, not_le.mp hold⟩))
      exact hack

/-- The loop commits what it can: it stops in front of a position that has not been acknowledged,
or at the end. -/
theorem commitLoop {positions : List ℤ} (h : OnBook events offsets)
    (hsorted : positions.Pairwise (· < ·))
    (hpositions : ∀ p, p ∈ positions ↔ p ∈ offsets.inflight.keys) :
    OnBook events (offsets.commitLoop positions) ∧
      offsets.committed ≤ (offsets.commitLoop positions).committed ∧
      ∀ p, HasRead events p → (offsets.commitLoop positions).committed < p →
        ∃ q ≤ p, HasRead events q ∧ ¬ HasAcknowledged events q := by
  induction positions generalizing offsets with
  | nil =>
    refine ⟨h, le_rfl, fun p hp hlt => ?_⟩
    exact absurd ((hpositions p).mpr (h.mem_keys_iff.mpr ⟨hp, hlt⟩)) List.not_mem_nil
  | cons pos positions ih =>
    obtain ⟨hrest, hsorted⟩ := List.pairwise_cons.mp hsorted
    have hpos : pos ∈ offsets.inflight.keys := (hpositions pos).mp List.mem_cons_self
    have hfirst : ∀ p ∈ offsets.inflight.keys, pos ≤ p := fun p hp => by
      rcases List.mem_cons.mp ((hpositions p).mpr hp) with rfl | hp
      · exact le_rfl
      · exact (hrest p hp).le
    rw [InflightOffsets.commitLoop]
    split
    · next hmarked =>
      have hnext := h.commitFirst hpos hfirst ((h.getD_iff hpos).mp hmarked)
      have hkeys : ∀ p, p ∈ positions ↔ p ∈ (offsets.inflight.erase pos).keys := by
        intro p
        rw [Dict.mem_keys_erase, ← hpositions, List.mem_cons]
        refine ⟨fun hp => ⟨(hrest p hp).ne', Or.inr hp⟩, fun ⟨hne, hp⟩ => hp.resolve_left hne⟩
      obtain ⟨hbook, hle, hstuck⟩ := ih hnext hsorted hkeys
      exact ⟨hbook, ((h.mem_keys_iff.mp hpos).2.trans_le hle).le, hstuck⟩
    · next hunmarked =>
      refine ⟨h, le_rfl, fun p hp hlt => ⟨pos, ?_, (h.mem_keys_iff.mp hpos).1, ?_⟩⟩
      · exact hfirst p (h.mem_keys_iff.mpr ⟨hp, hlt⟩)
      · exact fun hack => hunmarked ((h.getD_iff hpos).mpr hack)

/-- **A commit** stops at the first position that was read and not acknowledged. -/
theorem commit (h : OnBook events offsets) :
    OnBook events offsets.commit.2 ∧ offsets.committed ≤ offsets.commit.2.committed ∧
      ∀ p, HasRead events p → offsets.commit.2.committed < p →
        ∃ q ≤ p, HasRead events q ∧ ¬ HasAcknowledged events q :=
  h.commitLoop offsets.inflight.pairwise_lt_mergeSort_keys fun _ => List.mem_mergeSort

/-- A book with nothing left to commit. -/
theorem isGreatest_or (h : OnBook events offsets)
    (hstuck : ∀ p, HasRead events p → offsets.committed < p →
      ∃ q ≤ p, HasRead events q ∧ ¬ HasAcknowledged events q) :
    IsGreatest {p | AcknowledgedUpTo events p} offsets.committed ∨
      offsets.committed = -1 ∧ ∀ p, ¬ AcknowledgedUpTo events p := by
  have hupper : ∀ p, AcknowledgedUpTo events p → p ≤ offsets.committed := by
    rintro p ⟨hread, hall⟩
    by_contra hlt
    obtain ⟨q, hle, hq, hnot⟩ := hstuck p hread (not_le.mp hlt)
    exact hnot (hall q hle hq)
  rcases h.committed with heq | hread
  · refine Or.inr ⟨heq, fun p hp => ?_⟩
    have hle := hupper p hp
    have hlt := (h.hasRead p hp.1).1
    omega
  · exact Or.inl ⟨⟨hread, h.acknowledged⟩, hupper⟩

end OnBook

/-- One call of a connector. -/
theorem OnBook.step {readRefusal : ℤ → ℤ → String} {markRefusal : ℤ → String}
    {events : List (OffsetCall × OffsetAnswer)} {offsets : InflightOffsets}
    (h : OnBook events offsets) (call : OffsetCall) :
    OnBook (events ++ [(call, ((offsetTracker readRefusal markRefusal).step offsets call).1)])
        ((offsetTracker readRefusal markRefusal).step offsets call).2 ∧
      offsets.committed ≤
        ((offsetTracker readRefusal markRefusal).step offsets call).2.committed := by
  cases call with
  | read position =>
    simp only [offsetTracker, InflightOffsets.advance]
    split
    · exact ⟨h.append_of_ne (fun _ => by simp) (fun _ => by simp), le_rfl⟩
    · next hahead => exact ⟨h.read (not_le.mp hahead), le_rfl⟩
  | acknowledge position =>
    simp only [offsetTracker, InflightOffsets.mark]
    split
    · exact ⟨h.append_of_ne (fun _ => by simp) (fun _ => by simp), le_rfl⟩
    · next hinflight => exact ⟨h.mark (not_not.mp hinflight), le_rfl⟩
  | commit =>
    obtain ⟨hbook, hle, -⟩ := h.commit
    exact ⟨hbook.append_of_ne (fun _ => by simp) (fun _ => by simp), hle⟩

theorem onBook_run (readRefusal : ℤ → ℤ → String) (markRefusal : ℤ → String)
    (calls : List OffsetCall) :
    OnBook ((offsetTracker readRefusal markRefusal).trace {} calls)
      ((offsetTracker readRefusal markRefusal).final {} calls) := by
  refine Machine.trace_always (P := OnBook) ?_ (fun _ _ call h => (h.step call).1) calls
  exact ⟨by simp [HasRead], le_rfl, by simp [HasRead], Or.inl rfl, by simp [HasRead],
    by simp [HasAcknowledged]⟩

/-- Both connectors, whatever the words they refuse with. -/
theorem neverSkips_offsetTracker (readRefusal : ℤ → ℤ → String) (markRefusal : ℤ → String) :
    NeverSkips (offsetTracker readRefusal markRefusal) := by
  intro calls
  have h := onBook_run readRefusal markRefusal calls
  refine ⟨fun past hpast => ?_, h.acknowledged, ?_⟩
  · exact Machine.monotone_final (f := InflightOffsets.committed)
      (fun calls call => ((onBook_run readRefusal markRefusal calls).step call).2) hpast
  · rintro past rfl
    obtain ⟨hbook, -, hstuck⟩ := (onBook_run readRefusal markRefusal past).commit
    have hgreatest := hbook.isGreatest_or hstuck
    rw [Machine.trace_append, Machine.final_append]
    -- the commit itself neither reads nor acknowledges
    have hsame : ∀ p, AcknowledgedUpTo ((offsetTracker readRefusal markRefusal).trace {} past ++
        (offsetTracker readRefusal markRefusal).trace
          ((offsetTracker readRefusal markRefusal).final {} past) [.commit]) p ↔
        AcknowledgedUpTo ((offsetTracker readRefusal markRefusal).trace {} past) p :=
      fun _ => acknowledgedUpTo_append_of_ne (fun _ h => by cases h) (fun _ h => by cases h)
    simp only [hsame]
    exact hgreatest

/-- **Connectors never skip an unconfirmed record.** In every run of a source, and likewise of a
sink, the committed position never decreases, every position read up to it has been acknowledged,
and right after a commit it is the largest up to which all positions read have been, or -1 if there
is none. -/
theorem connectors_neverSkip : NeverSkips connectorOffsets ∧ NeverSkips sinkConnector :=
  ⟨neverSkips_offsetTracker _ _, neverSkips_offsetTracker _ _⟩

end Relay
