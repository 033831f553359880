import Relay.Lib.Dict
import Relay.Lib.Timeline
import Mathlib.Data.Int.Notation
import Mathlib.Data.List.TakeWhile
import Mathlib.Order.Lattice

/-!
# Recovery

A restarted broker compares the epoch history of its own log with the leader's, locates the
offset up to which they agree, and truncates what it holds past it.

The comparison walks the local epochs in order and stops at the first that the leader lacks or
began elsewhere. Up to there it takes the offset at which the *leader* left the last shared epoch,
and this is where it goes wrong in two ways. The local log may have left that epoch earlier, and
then holds records of another epoch below the truncation point. And the walk never asks whether
the leader had epochs of its own between the shared ones.

`recover_agrees_iff` says that these are the only two ways: recovery leaves two logs that agree
exactly when neither happens below the ends of both logs.

## Main definitions

* `EpochMarker`, `RecoveryPlan`, with `divergePoint`, `epochEnd` and `recover`
* `epochAt`: the epoch a history gives an offset
* `NoHiddenEpoch`: neither defect is reached

## Main results

* `divergePoint_eq`: the walk in closed form
* `recover_agrees_iff`: when recovery leaves no divergent record
-/

namespace Relay

open Timeline

/-- An epoch and the offset its records start at. -/
structure EpochMarker where
  epoch : ℤ
  startOffset : ℤ
  deriving DecidableEq, Repr

/-- What a restarting broker holds, and what recovery did with it. -/
structure RecoveryPlan where
  localEnd : ℤ
  localEpochs : List EpochMarker
  truncatedTo : ℤ := -1
  discarded : ℤ := 0
  indexRebuilt : Bool := false
  deriving DecidableEq

/-- `sorted(markers, key=lambda m: m.epoch)`. -/
def sortedByEpoch (markers : List EpochMarker) : List EpochMarker :=
  markers.mergeSort fun a b => decide (a.epoch ≤ b.epoch)

namespace RecoveryPlan

/-- The loop of `_epoch_end`, over the leader's markers in order. -/
def epochEndLoop (localEnd epoch : ℤ) : List EpochMarker → ℤ
  | marker :: rest =>
    if marker.epoch = epoch then
      match rest.head? with
      | some next => next.startOffset
      | none => localEnd
    else epochEndLoop localEnd epoch rest
  | [] => 0

/-- `_epoch_end`: where the leader's log leaves an epoch, or the local end for its last one. -/
def epochEnd (plan : RecoveryPlan) (epoch : ℤ) (leaderEpochs : List EpochMarker) : ℤ :=
  epochEndLoop plan.localEnd epoch (sortedByEpoch leaderEpochs)

/-- The loop of `diverge_point`, over the local markers in order. -/
def divergeLoop (leaderByEpoch : Dict ℤ ℤ) (endOf : ℤ → ℤ) (agreeOffset : ℤ) :
    List EpochMarker → ℤ
  | marker :: rest =>
    match leaderByEpoch.get? marker.epoch with
    | none => agreeOffset
    | some leaderStart =>
      if leaderStart ≠ marker.startOffset then agreeOffset
      else divergeLoop leaderByEpoch endOf (endOf marker.epoch) rest
  | [] => agreeOffset

/-- `diverge_point`. -/
def divergePoint (plan : RecoveryPlan) (leaderEpochs : List EpochMarker) : ℤ :=
  divergeLoop (Dict.ofList (leaderEpochs.map fun marker => (marker.epoch, marker.startOffset)))
    (fun epoch => plan.epochEnd epoch leaderEpochs) 0 (sortedByEpoch plan.localEpochs)

/-- `recover`. -/
def recover (plan : RecoveryPlan) (leaderEpochs : List EpochMarker) (leaderEnd : ℤ) :
    String × RecoveryPlan :=
  let safe := min (min (plan.divergePoint leaderEpochs) leaderEnd) plan.localEnd
  let discarded := max 0 (plan.localEnd - safe)
  let report :=
    if discarded = 0 then
      s!"recovered: log agrees through {safe}, nothing truncated, index rebuilt before serving"
    else
      s!"recovered: truncated to {safe}, discarded {discarded} unpromised record(s), index "
        ++ "rebuilt; the count is logged so a healthy "
        ++ "truncation is not mistaken for a bug eating data"
  (report, { plan with truncatedTo := safe, discarded, indexRebuilt := true })

/-- `may_serve`. -/
def mayServe (plan : RecoveryPlan) : Bool := decide (plan.truncatedTo ≥ 0) && plan.indexRebuilt

end RecoveryPlan

/-! ## Histories -/

/-- The markers as a timeline. -/
def history (markers : List EpochMarker) : List (ℤ × ℤ) :=
  markers.map fun marker => (marker.epoch, marker.startOffset)

/-- The epoch of an offset: that of the last marker at or before it. -/
def epochAt (markers : List EpochMarker) (offset : ℤ) : Option ℤ :=
  labelAt (history markers) offset

@[simp] theorem mem_history {markers : List EpochMarker} {epoch startOffset : ℤ} :
    (epoch, startOffset) ∈ history markers ↔ ⟨epoch, startOffset⟩ ∈ markers := by
  simp only [history, List.mem_map, Prod.mk.injEq]
  constructor
  · rintro ⟨⟨e, s⟩, hm, rfl, rfl⟩
    exact hm
  · intro hm
    exact ⟨_, hm, rfl, rfl⟩

/-- An epoch history of a log: epochs increase strictly, their starts do not decrease, the first
starts at offset `0`, and none starts past the end of the log. -/
structure WellFormedHistory (markers : List EpochMarker) (logEnd : ℤ) : Prop where
  ordered : Ordered (history markers)
  head_startOffset : ∀ marker ∈ markers.head?, marker.startOffset = 0
  startOffset_le : ∀ marker ∈ markers, marker.startOffset ≤ logEnd

namespace WellFormedHistory

variable {markers : List EpochMarker} {logEnd : ℤ}

theorem pairwise (h : WellFormedHistory markers logEnd) :
    markers.Pairwise fun a b => a.epoch < b.epoch ∧ a.startOffset ≤ b.startOffset :=
  List.pairwise_map.mp h.ordered

/-- A well-formed history is sorted already. -/
theorem sortedByEpoch_eq (h : WellFormedHistory markers logEnd) : sortedByEpoch markers = markers :=
  List.mergeSort_of_pairwise (h.pairwise.imp fun hab => decide_eq_true hab.1.le)

theorem startOffset_nonneg (h : WellFormedHistory markers logEnd) {marker : EpochMarker}
    (hm : marker ∈ markers) : 0 ≤ marker.startOffset := by
  cases markers with
  | nil => cases hm
  | cons first rest =>
    have hfirst := h.head_startOffset first rfl
    rcases List.mem_cons.mp hm with rfl | hm
    · omega
    · have := ((List.pairwise_cons.mp h.pairwise).1 marker hm).2
      omega

/-- No offset below `0` has an epoch. -/
theorem epochAt_of_neg (h : WellFormedHistory markers logEnd) {offset : ℤ} (ho : offset < 0) :
    epochAt markers offset = none := by
  rw [epochAt, ← Option.not_isSome_iff_eq_none, Option.isSome_iff_exists]
  rintro ⟨e, he⟩
  obtain ⟨⟨_, start⟩, hat, -⟩ := labelAt_eq_some_iff.mp he
  obtain ⟨hm, hle, -⟩ := (markerAt_eq_some_iff h.ordered).mp hat
  have := h.startOffset_nonneg (mem_history.mp hm)
  simp only at this hle
  omega

/-- The leader's markers, looked up by epoch. -/
theorem get?_byEpoch_iff (h : WellFormedHistory markers logEnd) (marker : EpochMarker) :
    (Dict.ofList (history markers)).get? marker.epoch = some marker.startOffset ↔
      marker ∈ markers := by
  have hnodup : ((history markers).map Prod.fst).Nodup := by
    rw [List.nodup_iff_pairwise_ne, List.pairwise_map]
    exact h.ordered.imp fun hab => hab.1.ne
  rw [Dict.get?_ofList_eq_some_iff hnodup, mem_history]

end WellFormedHistory

/-! ## The walk in closed form -/

/-- The local markers before the first that the leader does not have. -/
def shared (localEpochs leaderEpochs : List EpochMarker) : List EpochMarker :=
  localEpochs.takeWhile fun marker => decide (marker ∈ leaderEpochs)

/-- The local markers from the first that the leader does not have. -/
def unshared (localEpochs leaderEpochs : List EpochMarker) : List EpochMarker :=
  localEpochs.dropWhile fun marker => decide (marker ∈ leaderEpochs)

theorem divergeLoop_eq {leaderByEpoch : Dict ℤ ℤ} {leaderEpochs : List EpochMarker}
    (hget : ∀ marker : EpochMarker,
      leaderByEpoch.get? marker.epoch = some marker.startOffset ↔ marker ∈ leaderEpochs)
    (endOf : ℤ → ℤ) (agreeOffset : ℤ) (localEpochs : List EpochMarker) :
    RecoveryPlan.divergeLoop leaderByEpoch endOf agreeOffset localEpochs =
      ((shared localEpochs leaderEpochs).getLast?.map fun last => endOf last.epoch).getD
        agreeOffset := by
  induction localEpochs generalizing agreeOffset with
  | nil => rfl
  | cons marker rest ih =>
    rw [RecoveryPlan.divergeLoop]
    by_cases hm : marker ∈ leaderEpochs
    · have hshared : shared (marker :: rest) leaderEpochs = marker :: shared rest leaderEpochs := by
        simp [shared, hm]
      simp only [(hget marker).mpr hm, ne_eq, not_true_eq_false, if_false]
      rw [ih, hshared, List.getLast?_cons]
      cases (shared rest leaderEpochs).getLast? <;> rfl
    · have hshared : shared (marker :: rest) leaderEpochs = [] := by simp [shared, hm]
      rw [hshared]
      cases hlookup : leaderByEpoch.get? marker.epoch with
      | none => rfl
      | some leaderStart =>
        have hne : leaderStart ≠ marker.startOffset := by
          rintro rfl
          exact hm ((hget marker).mp hlookup)
        simp [hne]

/-- Below the local end, the loop of `_epoch_end` finds the bound that the leader's later markers
put on an epoch it has. -/
theorem lt_epochEndLoop_iff {markers : List EpochMarker}
    (hs : markers.Pairwise fun a b => a.epoch < b.epoch ∧ a.startOffset ≤ b.startOffset)
    {last : EpochMarker} (hlast : last ∈ markers) {localEnd offset : ℤ} (ho : offset < localEnd) :
    offset < RecoveryPlan.epochEndLoop localEnd last.epoch markers ↔
      ∀ n ∈ markers, last.epoch < n.epoch → offset < n.startOffset := by
  induction markers with
  | nil => cases hlast
  | cons marker rest ih =>
    obtain ⟨hhead, hrest⟩ := List.pairwise_cons.mp hs
    rw [RecoveryPlan.epochEndLoop]
    by_cases hm : marker.epoch = last.epoch
    · rw [if_pos hm]
      cases rest with
      | nil => simp [ho, hm]
      | cons next rest =>
        have hnext := (hhead next (List.mem_cons_self ..)).1
        constructor
        · intro hlt n hn hgt
          rcases List.mem_cons.mp hn with rfl | hn
          · omega
          · rcases List.mem_cons.mp hn with rfl | hn
            · exact hlt
            · exact hlt.trans_le ((List.pairwise_cons.mp hrest).1 n hn).2
        · intro hall
          exact hall next (by simp) (by omega)
    · rw [if_neg hm]
      have hin : last ∈ rest := by
        rcases List.mem_cons.mp hlast with rfl | hin
        · exact absurd rfl hm
        · exact hin
      have hlt := (hhead last hin).1
      rw [ih hrest hin]
      constructor
      · intro hall n hn hgt
        rcases List.mem_cons.mp hn with rfl | hn
        · omega
        · exact hall n hn hgt
      · intro hall n hn
        exact hall n (List.mem_cons_of_mem marker hn)

section Recover

variable {plan : RecoveryPlan} {leaderEpochs : List EpochMarker} {leaderEnd : ℤ}

/-- **The divergence point in closed form**: where the leader leaves the last shared epoch. -/
theorem divergePoint_eq (hlocal : WellFormedHistory plan.localEpochs plan.localEnd)
    (hleader : WellFormedHistory leaderEpochs leaderEnd) :
    plan.divergePoint leaderEpochs =
      ((shared plan.localEpochs leaderEpochs).getLast?.map fun last =>
        RecoveryPlan.epochEndLoop plan.localEnd last.epoch leaderEpochs).getD 0 := by
  rw [RecoveryPlan.divergePoint, hlocal.sortedByEpoch_eq]
  simp only [RecoveryPlan.epochEnd, hleader.sortedByEpoch_eq]
  exact divergeLoop_eq hleader.get?_byEpoch_iff _ 0 plan.localEpochs

/-- What recovery keeps: below both ends, and below every later start on the leader. -/
def Kept (plan : RecoveryPlan) (leaderEpochs : List EpochMarker) (leaderEnd : ℤ)
    (last : EpochMarker) (offset : ℤ) : Prop :=
  offset < leaderEnd ∧ offset < plan.localEnd ∧
    ∀ n ∈ leaderEpochs, last.epoch < n.epoch → offset < n.startOffset

theorem mem_leaderEpochs_of_mem_shared {marker : EpochMarker} {localEpochs : List EpochMarker}
    (h : marker ∈ shared localEpochs leaderEpochs) : marker ∈ leaderEpochs := by
  simpa using List.mem_takeWhile_imp h

theorem lt_truncatedTo_iff (hlocal : WellFormedHistory plan.localEpochs plan.localEnd)
    (hleader : WellFormedHistory leaderEpochs leaderEnd) {last : EpochMarker}
    (hlast : (shared plan.localEpochs leaderEpochs).getLast? = some last) (offset : ℤ) :
    offset < (plan.recover leaderEpochs leaderEnd).2.truncatedTo ↔
      Kept plan leaderEpochs leaderEnd last offset := by
  have hin := mem_leaderEpochs_of_mem_shared (List.mem_of_getLast? hlast)
  simp only [RecoveryPlan.recover, divergePoint_eq hlocal hleader, hlast, Option.map_some,
    Option.getD_some, Kept, lt_inf_iff]
  constructor
  · rintro ⟨⟨hend, hle⟩, hlo⟩
    exact ⟨hle, hlo, (lt_epochEndLoop_iff hleader.pairwise hin hlo).mp hend⟩
  · rintro ⟨hle, hlo, hlater⟩
    exact ⟨⟨(lt_epochEndLoop_iff hleader.pairwise hin hlo).mpr hlater, hle⟩, hlo⟩

/-! ## When recovery leaves no divergent record -/

/-- Neither defect of the walk is reached. -/
structure NoHiddenEpoch (plan : RecoveryPlan) (leaderEpochs : List EpochMarker) (leaderEnd : ℤ) :
    Prop where
  /-- Where the local log leaves the last shared epoch, the leader's log has left it too, or one
  of the logs has ended. -/
  next : ∀ last ∈ (shared plan.localEpochs leaderEpochs).getLast?,
    ∀ next ∈ (unshared plan.localEpochs leaderEpochs).head?,
      leaderEnd ≤ next.startOffset ∨ plan.localEnd ≤ next.startOffset ∨
        ∃ n ∈ leaderEpochs, last.epoch < n.epoch ∧ n.startOffset ≤ next.startOffset
  /-- An epoch that the leader had before the last shared one, and that is not shared, holds no
  record: the leader left it where it began, or one of the logs has ended by then. -/
  between : ∀ last ∈ (shared plan.localEpochs leaderEpochs).getLast?, ∀ marker ∈ leaderEpochs,
    marker ∉ shared plan.localEpochs leaderEpochs → marker.epoch < last.epoch →
      leaderEnd ≤ marker.startOffset ∨ plan.localEnd ≤ marker.startOffset ∨
        ∃ n ∈ leaderEpochs, marker.epoch < n.epoch ∧ n.startOffset ≤ marker.startOffset

/-- An offset that is not kept is past an end, or past a later start on the leader. -/
theorem not_kept_iff {last : EpochMarker} {offset : ℤ} :
    ¬ Kept plan leaderEpochs leaderEnd last offset ↔
      leaderEnd ≤ offset ∨ plan.localEnd ≤ offset ∨
        ∃ n ∈ leaderEpochs, last.epoch < n.epoch ∧ n.startOffset ≤ offset := by
  simp only [Kept, not_and_or, not_forall, not_lt, exists_prop]

/-- The condition, read on the two timelines. -/
theorem noHiddenEpoch_iff_undisturbed {last : EpochMarker}
    (hlast : (shared plan.localEpochs leaderEpochs).getLast? = some last) :
    NoHiddenEpoch plan leaderEpochs leaderEnd ↔
      Undisturbed (history (shared plan.localEpochs leaderEpochs))
        (history (unshared plan.localEpochs leaderEpochs)) (history leaderEpochs)
        (last.epoch, last.startOffset) (Kept plan leaderEpochs leaderEnd last) := by
  have hhead : ∀ x, x ∈ (history (unshared plan.localEpochs leaderEpochs)).head? ↔
      ⟨x.1, x.2⟩ ∈ (unshared plan.localEpochs leaderEpochs).head? := by
    rintro ⟨e, o⟩
    cases unshared plan.localEpochs leaderEpochs with
    | nil => simp [history]
    | cons marker rest => cases marker; simp [history]
  constructor
  · rintro ⟨hnext, hbetween⟩
    refine ⟨fun x hx => not_kept_iff.mpr (hnext last hlast _ ((hhead x).mp hx)), ?_⟩
    rintro ⟨e, o⟩ hm hms hlt ⟨hle, hlo, -⟩
    rcases hbetween last hlast ⟨e, o⟩ (mem_history.mp hm) (fun hc => hms (mem_history.mpr hc))
      hlt with hend | hend | ⟨n, hn, hgt, hno⟩
    · exact absurd hle hend.not_gt
    · exact absurd hlo hend.not_gt
    · exact ⟨(n.epoch, n.startOffset), mem_history.mpr hn, hgt, hno⟩
  · rintro ⟨hnext, hbetween⟩
    constructor
    case next =>
      intro last' hlast' x hx
      obtain rfl : last = last' := Option.some.inj (hlast.symm.trans hlast')
      exact not_kept_iff.mp (hnext (x.epoch, x.startOffset) ((hhead _).mpr hx))
    case between =>
      intro last' hlast' marker hm hms hlt
      obtain rfl : last = last' := Option.some.inj (hlast.symm.trans hlast')
      by_cases hkept : Kept plan leaderEpochs leaderEnd last marker.startOffset
      · obtain ⟨⟨e, o⟩, hn, hgt, hle⟩ := hbetween (marker.epoch, marker.startOffset)
          (mem_history.mpr hm) (fun hc => hms (mem_history.mp hc)) hlt hkept
        exact Or.inr (Or.inr ⟨⟨e, o⟩, mem_history.mp hn, hgt, hle⟩)
      · rcases not_kept_iff.mp hkept with hend | hend | ⟨n, hn, hgt, hle⟩
        · exact Or.inl hend
        · exact Or.inr (Or.inl hend)
        · exact Or.inr (Or.inr ⟨n, hn, hlt.trans hgt, hle⟩)

/-- **When recovery leaves no divergent record.** For well-formed histories, every offset below
the truncation point lies in the same epoch on both logs exactly when the local log does not leave
the last shared epoch before the leader does, and the leader had no epoch of its own, with
records, between shared ones. -/
theorem recover_agrees_iff (plan : RecoveryPlan) (leaderEpochs : List EpochMarker)
    (leaderEnd : ℤ) (hlocal : WellFormedHistory plan.localEpochs plan.localEnd)
    (hleader : WellFormedHistory leaderEpochs leaderEnd) :
    (∀ offset, offset < (plan.recover leaderEpochs leaderEnd).2.truncatedTo →
        epochAt plan.localEpochs offset = epochAt leaderEpochs offset) ↔
      NoHiddenEpoch plan leaderEpochs leaderEnd := by
  cases hlast : (shared plan.localEpochs leaderEpochs).getLast? with
  | none =>
    -- nothing is shared, everything is truncated, and the condition says nothing
    have hpoint : plan.divergePoint leaderEpochs = 0 := by
      rw [divergePoint_eq hlocal hleader, hlast]; rfl
    refine iff_of_true (fun offset ho => ?_) ⟨by simp [hlast], by simp [hlast]⟩
    simp only [RecoveryPlan.recover, hpoint, lt_inf_iff] at ho
    rw [hlocal.epochAt_of_neg ho.1.1, hleader.epochAt_of_neg ho.1.1]
  | some last =>
    have hsplit : history plan.localEpochs =
        history (shared plan.localEpochs leaderEpochs)
          ++ history (unshared plan.localEpochs leaderEpochs) := by
      rw [history, history, history, ← List.map_append]
      exact congrArg _ List.takeWhile_append_dropWhile.symm
    have hordered := hlocal.ordered
    rw [hsplit] at hordered
    have hdown : ∀ a b : ℤ, a ≤ b → Kept plan leaderEpochs leaderEnd last b →
        Kept plan leaderEpochs leaderEnd last a := by
      rintro a b hab ⟨hle, hlo, hlater⟩
      exact ⟨hab.trans_lt hle, hab.trans_lt hlo, fun n hn hgt => hab.trans_lt (hlater n hn hgt)⟩
    have hsub : ∀ m ∈ history (shared plan.localEpochs leaderEpochs), m ∈ history leaderEpochs := by
      rintro ⟨e, o⟩ hm
      exact mem_history.mpr (mem_leaderEpochs_of_mem_shared (mem_history.mp hm))
    have hp : (history (shared plan.localEpochs leaderEpochs)).getLast? =
        some (last.epoch, last.startOffset) := by
      rw [history, List.getLast?_map, hlast]; rfl
    have hcut : ∀ o, Kept plan leaderEpochs leaderEnd last o →
        ∀ n ∈ history leaderEpochs, last.epoch < n.1 → o < n.2 := by
      rintro o ⟨-, -, hlater⟩ ⟨e, s⟩ hn hgt
      exact hlater ⟨e, s⟩ (mem_history.mp hn) hgt
    calc (∀ offset, offset < (plan.recover leaderEpochs leaderEnd).2.truncatedTo →
          epochAt plan.localEpochs offset = epochAt leaderEpochs offset)
        ↔ ∀ offset, Kept plan leaderEpochs leaderEnd last offset →
            labelAt (history plan.localEpochs) offset = labelAt (history leaderEpochs) offset :=
          forall_congr' fun o => imp_congr_left (lt_truncatedTo_iff hlocal hleader hlast o)
      _ ↔ ∀ m : ℤ × ℤ, Kept plan leaderEpochs leaderEnd last m.2 →
            (Begins (history plan.localEpochs) m ↔ Begins (history leaderEpochs) m) :=
          labelAt_eq_iff hlocal.ordered hleader.ordered hdown
      _ ↔ Undisturbed _ _ (history leaderEpochs) (last.epoch, last.startOffset)
            (Kept plan leaderEpochs leaderEnd last) := by
          rw [hsplit]
          exact begins_iff_iff_undisturbed hordered hleader.ordered hsub hp hdown hcut
      _ ↔ NoHiddenEpoch plan leaderEpochs leaderEnd :=
          (noHiddenEpoch_iff_undisturbed hlast).symm

end Recover

/-- The local log leaves epoch `1` at offset `50`, for an epoch the leader never had; the leader
stays in epoch `1` up to offset `100`. Recovery truncates to `100` and keeps the fifty records
that diverge. -/
theorem recover_keeps_divergent_records :
    WellFormedHistory [⟨1, 0⟩, ⟨2, 50⟩] 200 ∧ WellFormedHistory [⟨1, 0⟩, ⟨3, 100⟩] 200 ∧
      ¬ ∀ offset,
        offset < ((⟨200, [⟨1, 0⟩, ⟨2, 50⟩], -1, 0, false⟩ : RecoveryPlan).recover
          [⟨1, 0⟩, ⟨3, 100⟩] 200).2.truncatedTo →
        epochAt [⟨1, 0⟩, ⟨2, 50⟩] offset = epochAt [⟨1, 0⟩, ⟨3, 100⟩] offset := by
  have hlocal : WellFormedHistory [⟨1, 0⟩, ⟨2, 50⟩] 200 := ⟨by decide, by decide, by decide⟩
  have hleader : WellFormedHistory [⟨1, 0⟩, ⟨3, 100⟩] 200 := ⟨by decide, by decide, by decide⟩
  refine ⟨hlocal, hleader, fun hagree => ?_⟩
  have hkept : Kept ⟨200, [⟨1, 0⟩, ⟨2, 50⟩], -1, 0, false⟩ [⟨1, 0⟩, ⟨3, 100⟩] 200 ⟨1, 0⟩ 60 := by
    refine ⟨by decide, by decide, by decide⟩
  have heq := hagree 60 ((lt_truncatedTo_iff hlocal hleader (by decide) 60).mpr hkept)
  exact absurd heq (by decide)

/-- Histories that part at the same offset on both logs: recovery truncates there. -/
theorem recover_agrees_iff_parted :
    NoHiddenEpoch ⟨200, [⟨4, 0⟩, ⟨5, 100⟩], -1, 0, false⟩ [⟨4, 0⟩, ⟨6, 100⟩] 180 ∧
      ∀ offset, offset < ((⟨200, [⟨4, 0⟩, ⟨5, 100⟩], -1, 0, false⟩ : RecoveryPlan).recover
          [⟨4, 0⟩, ⟨6, 100⟩] 180).2.truncatedTo →
        epochAt [⟨4, 0⟩, ⟨5, 100⟩] offset = epochAt [⟨4, 0⟩, ⟨6, 100⟩] offset := by
  have hparted : NoHiddenEpoch ⟨200, [⟨4, 0⟩, ⟨5, 100⟩], -1, 0, false⟩ [⟨4, 0⟩, ⟨6, 100⟩] 180 :=
    ⟨by decide, by decide⟩
  refine ⟨hparted, (recover_agrees_iff ⟨200, [⟨4, 0⟩, ⟨5, 100⟩], -1, 0, false⟩
    [⟨4, 0⟩, ⟨6, 100⟩] 180 ?_ ?_).mpr hparted⟩
  · exact ⟨by decide, by decide, by decide⟩
  · exact ⟨by decide, by decide, by decide⟩

end Relay
