import Mathlib.Algebra.Order.Ring.Int
import Mathlib.Data.List.Sort
import Relay.Errors
import Relay.Lib.Dict
import Relay.Lib.Machine
import Relay.Lib.Since
import Relay.Lib.Tiling

/-!
# Tiered storage

The segments of a log are kept on local disk while they are young, and go to an object store when
their end is further behind than the local window. A segment is uploaded, what the store then has is
compared with it, and only if it is the same the segment counts as cold.

The store has one object for a base offset. As long as no two segments of the same base differ it
therefore has every cold segment.

## Main definitions

* `TieredLog`, with `addLocal`, `tierOut`, `tierOf`, `continuous` and `coldRatio`
* `tieredLog`: the log as a component
* `segmentsOf`: the segments with their tiers, told from the calls alone

## Main results

* `tieredLog_answers`: what every call of a run answers, and what is in the store
-/

namespace Relay

/-- Where a segment is. -/
inductive Tier where
  | localTier
  | cold
  deriving DecidableEq

/-- A segment, up to but not including its end. -/
structure TieredSegment where
  baseOffset : ℤ
  endOffset : ℤ
  digest : String
  tier : Tier
  deriving DecidableEq

/-- The log. -/
structure TieredLog where
  localWindow : ℤ
  segments : List TieredSegment := []
  objectStore : Dict String String := ∅
  uploadsVerified : ℤ := 0
  failedDeletesPrevented : ℤ := 0

/-- What a lookup is refused with. -/
def noSegment (offset : ℤ) : RelayError :=
  .missing s!"offset {offset} is in no segment of either tier"

/-- What is said of the segments that went to the store. -/
def tieredReport (moved : ℕ) : String :=
  s!"tiered {moved} segment(s) to cold storage after verify-then-delete, never reordered"

/-- What is said of how many segments are cold. -/
def coldReport (cold segments : ℕ) : String :=
  s!"{cold} of {segments} segment(s) cold; " ++
    "the cost story of tiering lives entirely in this ratio"

namespace TieredSegment

/-- The offset is in the segment. -/
def Holds (seg : TieredSegment) (offset : ℤ) : Prop :=
  seg.baseOffset ≤ offset ∧ offset < seg.endOffset

instance (seg : TieredSegment) (offset : ℤ) : Decidable (seg.Holds offset) :=
  inferInstanceAs (Decidable (_ ∧ _))

/-- The key of the segment in the store. -/
def key (seg : TieredSegment) : String := toString seg.baseOffset

/-- The offsets of the segment. -/
def span (seg : TieredSegment) : ℤ × ℤ := (seg.baseOffset, seg.endOffset)

end TieredSegment

namespace TieredLog

/-- What a pass over the segments changes besides these. -/
structure Pass where
  objectStore : Dict String String
  uploadsVerified : ℤ
  failedDeletesPrevented : ℤ
  moved : ℕ

/-- The loop of `tier_out`. -/
def tierLoop (localWindow nowEnd : ℤ) : List TieredSegment → Pass → List TieredSegment × Pass
  | [], pass => ([], pass)
  | seg :: rest, pass =>
    if seg.tier ≠ .localTier ∨ nowEnd - seg.endOffset ≤ localWindow then
      (seg :: (tierLoop localWindow nowEnd rest pass).1, (tierLoop localWindow nowEnd rest pass).2)
    else
      let store := pass.objectStore.set seg.key seg.digest
      if store.get? seg.key ≠ some seg.digest then
        let after := tierLoop localWindow nowEnd rest
          { pass with
            objectStore := store, failedDeletesPrevented := pass.failedDeletesPrevented + 1 }
        (seg :: after.1, after.2)
      else
        let after := tierLoop localWindow nowEnd rest
          { pass with
            objectStore := store, uploadsVerified := pass.uploadsVerified + 1,
            moved := pass.moved + 1 }
        ({ seg with tier := .cold } :: after.1, after.2)

/-- `add_local`. -/
def addLocal (log : TieredLog) (base endOffset : ℤ) (digest : String) : TieredLog :=
  { log with segments := log.segments ++ [⟨base, endOffset, digest, .localTier⟩] }

/-- `tier_out`. -/
def tierOut (log : TieredLog) (nowEnd : ℤ) : String × TieredLog :=
  let after := tierLoop log.localWindow nowEnd log.segments
    ⟨log.objectStore, log.uploadsVerified, log.failedDeletesPrevented, 0⟩
  (tieredReport after.2.moved,
    { log with
      segments := after.1, objectStore := after.2.objectStore,
      uploadsVerified := after.2.uploadsVerified,
      failedDeletesPrevented := after.2.failedDeletesPrevented })

/-- `tier_of`. -/
def tierOf (log : TieredLog) (offset : ℤ) : Except RelayError Tier :=
  match log.segments.find? fun seg => seg.Holds offset with
  | some seg => .ok seg.tier
  | none => .error (noSegment offset)

/-- The loop of `continuous`. -/
def abutting : List TieredSegment → Bool
  | earlier :: later :: rest =>
    if earlier.endOffset ≠ later.baseOffset then false else abutting (later :: rest)
  | _ => true

/-- `continuous`. -/
def continuous (log : TieredLog) : Bool :=
  abutting (log.segments.mergeSort fun s t => s.baseOffset ≤ t.baseOffset)

/-- `cold_ratio`. -/
def coldRatio (log : TieredLog) : Except RelayError String :=
  if log.segments = [] then .error (.invalid "no segments to measure")
  else .ok (coldReport (log.segments.countP fun seg => seg.tier = .cold) log.segments.length)

end TieredLog

/-- What is asked of the log. -/
inductive TieredCall where
  | addLocal (base endOffset : ℤ) (digest : String)
  | tierOut (nowEnd : ℤ)
  | tierOf (offset : ℤ)
  | continuous
  | coldRatio
  deriving DecidableEq

/-- What the log answers. -/
inductive TieredAnswer where
  | addLocal
  | tierOut (report : String)
  | tierOf (answer : Except RelayError Tier)
  | continuous (answer : Bool)
  | coldRatio (answer : Except RelayError String)

/-- The log as a component. -/
def tieredLog : Machine TieredLog TieredCall TieredAnswer where
  step log
    | .addLocal base endOffset digest => (.addLocal, log.addLocal base endOffset digest)
    | .tierOut nowEnd => (.tierOut (log.tierOut nowEnd).1, (log.tierOut nowEnd).2)
    | .tierOf offset => (.tierOf (log.tierOf offset), log)
    | .continuous => (.continuous log.continuous, log)
    | .coldRatio => (.coldRatio log.coldRatio, log)

/-! ## What the calls say -/

/-- The event moves segments to the store that end where this one does. -/
def Cools (localWindow endOffset : ℤ) : TieredCall × TieredAnswer → Prop
  | (.tierOut nowEnd, _) => localWindow < nowEnd - endOffset
  | _ => False

instance (localWindow endOffset : ℤ) : DecidablePred (Cools localWindow endOffset)
  | (.addLocal .., _) => .isFalse id
  | (.tierOut nowEnd, _) => inferInstanceAs (Decidable (localWindow < nowEnd - endOffset))
  | (.tierOf _, _) => .isFalse id
  | (.continuous, _) => .isFalse id
  | (.coldRatio, _) => .isFalse id

/-- The segments in the order they were added in. A segment is cold if a later call found it far
enough behind. -/
def segmentsOf (localWindow : ℤ) : List (TieredCall × TieredAnswer) → List TieredSegment
  | [] => []
  | (.addLocal base endOffset digest, _) :: later =>
    ⟨base, endOffset, digest,
      if ∃ e ∈ later, Cools localWindow endOffset e then .cold else .localTier⟩ ::
        segmentsOf localWindow later
  | _ :: later => segmentsOf localWindow later

/-- A segment that is on local disk and far enough behind. -/
def Due (localWindow nowEnd : ℤ) (seg : TieredSegment) : Prop :=
  seg.tier = .localTier ∧ localWindow < nowEnd - seg.endOffset

instance (localWindow nowEnd : ℤ) : DecidablePred (Due localWindow nowEnd) :=
  fun _ => inferInstanceAs (Decidable (_ ∧ _))

/-- What is answered after some events. -/
def TieredAnswers (localWindow : ℤ) (past : List (TieredCall × TieredAnswer)) :
    TieredCall × TieredAnswer → Prop
  | (.addLocal .., answer) => answer = .addLocal
  | (.tierOut nowEnd, answer) =>
    answer = .tierOut (tieredReport ((segmentsOf localWindow past).countP
      fun seg => Due localWindow nowEnd seg))
  | (.tierOf offset, answer) =>
    (∀ tier, answer = .tierOf (.ok tier) ↔ ∃ before seg after,
        segmentsOf localWindow past = before ++ seg :: after ∧ seg.Holds offset ∧
          (∀ s ∈ before, ¬ s.Holds offset) ∧ seg.tier = tier) ∧
      ((∀ seg ∈ segmentsOf localWindow past, ¬ seg.Holds offset) →
        answer = .tierOf (.error (noSegment offset)))
  | (.continuous, answer) =>
    ∃ b, answer = .continuous b ∧
      ((∀ seg ∈ segmentsOf localWindow past, seg.baseOffset < seg.endOffset) →
        (b = true ↔ Ranges.Tiles ((segmentsOf localWindow past).map TieredSegment.span)))
  | (.coldRatio, answer) =>
    answer = .coldRatio (if segmentsOf localWindow past = [] then
      .error (.invalid "no segments to measure")
      else .ok (coldReport ((segmentsOf localWindow past).countP fun seg => seg.tier = .cold)
        (segmentsOf localWindow past).length))

/-! ## One pass -/

section Pass

variable {localWindow nowEnd : ℤ}

/-- A segment after a pass. -/
def cool (localWindow nowEnd : ℤ) (seg : TieredSegment) : TieredSegment :=
  if Due localWindow nowEnd seg then { seg with tier := .cold } else seg

/-- **A pass.** All segments that are due go to the store, in order, and no upload fails. -/
theorem tierLoop_eq (segs : List TieredSegment) (pass : TieredLog.Pass) :
    TieredLog.tierLoop localWindow nowEnd segs pass =
      (segs.map (cool localWindow nowEnd),
        { objectStore := pass.objectStore.assign
            ((segs.filter fun seg => Due localWindow nowEnd seg).map
              fun seg => (seg.key, seg.digest))
          uploadsVerified := pass.uploadsVerified +
            (segs.countP fun seg => Due localWindow nowEnd seg : ℕ)
          failedDeletesPrevented := pass.failedDeletesPrevented
          moved := pass.moved + segs.countP fun seg => Due localWindow nowEnd seg }) := by
  induction segs generalizing pass with
  | nil =>
    rw [TieredLog.tierLoop, List.filter_nil, List.map_nil, List.countP_nil, Nat.cast_zero,
      Int.add_zero]
    rfl
  | cons seg segs ih =>
    rw [TieredLog.tierLoop, List.map_cons, cool]
    by_cases hdue : Due localWindow nowEnd seg
    · have hnot : ¬ (seg.tier ≠ .localTier ∨ nowEnd - seg.endOffset ≤ localWindow) := by
        rw [not_or, not_not, not_le]
        exact hdue
      have hfilter : (seg :: segs).filter (fun seg => Due localWindow nowEnd seg) =
          seg :: segs.filter fun seg => Due localWindow nowEnd seg :=
        List.filter_cons_of_pos (decide_eq_true hdue)
      have hcount : (seg :: segs).countP (fun seg => Due localWindow nowEnd seg) =
          segs.countP (fun seg => Due localWindow nowEnd seg) + 1 :=
        List.countP_cons_of_pos (decide_eq_true hdue)
      rw [if_neg hnot, if_pos hdue, hfilter, hcount]
      dsimp only
      rw [Dict.get?_set, if_pos rfl, if_neg fun h => h rfl, ih, Nat.cast_add]
      dsimp only
      rw [Int.add_assoc, Int.add_comm 1, Nat.add_assoc, Nat.add_comm 1]
      rfl
    · have hnot : seg.tier ≠ .localTier ∨ nowEnd - seg.endOffset ≤ localWindow := by
        rw [Due, not_and_or, not_lt] at hdue
        exact hdue
      have hfilter : (seg :: segs).filter (fun seg => Due localWindow nowEnd seg) =
          segs.filter fun seg => Due localWindow nowEnd seg :=
        List.filter_cons_of_neg fun h => hdue (of_decide_eq_true h)
      have hcount : (seg :: segs).countP (fun seg => Due localWindow nowEnd seg) =
          segs.countP fun seg => Due localWindow nowEnd seg :=
        List.countP_cons_of_neg fun h => hdue (of_decide_eq_true h)
      rw [if_pos hnot, if_neg hdue, hfilter, hcount, ih]

theorem tierOut_eq (log : TieredLog) (nowEnd : ℤ) :
    log.tierOut nowEnd =
      (tieredReport (log.segments.countP fun seg => Due log.localWindow nowEnd seg),
        { log with
          segments := log.segments.map (cool log.localWindow nowEnd)
          objectStore := log.objectStore.assign
            ((log.segments.filter fun seg => Due log.localWindow nowEnd seg).map fun seg =>
              (seg.key, seg.digest))
          uploadsVerified := log.uploadsVerified +
            (log.segments.countP fun seg => Due log.localWindow nowEnd seg : ℕ) }) := by
  rw [TieredLog.tierOut, tierLoop_eq]
  dsimp only
  rw [Nat.zero_add]

theorem tier_cool (seg : TieredSegment) :
    (cool localWindow nowEnd seg).tier = .cold ↔ seg.tier = .cold ∨ Due localWindow nowEnd seg := by
  rw [cool]
  split
  · next hdue => exact iff_of_true rfl (Or.inr hdue)
  · next hdue => exact (or_iff_left hdue).symm

theorem cool_eq (seg : TieredSegment) :
    (cool localWindow nowEnd seg).baseOffset = seg.baseOffset ∧
      (cool localWindow nowEnd seg).endOffset = seg.endOffset ∧
      (cool localWindow nowEnd seg).digest = seg.digest := by
  rw [cool]
  split <;> exact ⟨rfl, rfl, rfl⟩

/-- The pass adds those that were due to the cold ones. -/
theorem countP_cool (segs : List TieredSegment) :
    (segs.map (cool localWindow nowEnd)).countP (fun seg => seg.tier = .cold) =
      segs.countP (fun seg => seg.tier = .cold) +
        segs.countP fun seg => Due localWindow nowEnd seg := by
  induction segs with
  | nil => rfl
  | cons seg segs ih =>
    rw [List.map_cons, List.countP_cons, List.countP_cons, List.countP_cons, ih]
    simp only [decide_eq_true_eq, tier_cool]
    by_cases hcold : seg.tier = .cold
    · have hdue : ¬ Due localWindow nowEnd seg := fun h => by
        rw [h.1] at hcold
        cases hcold
      rw [if_pos (Or.inl hcold), if_pos hcold, if_neg hdue]
      omega
    · by_cases hdue : Due localWindow nowEnd seg
      · rw [if_pos (Or.inr hdue), if_neg hcold, if_pos hdue]
        omega
      · rw [if_neg (not_or.mpr ⟨hcold, hdue⟩), if_neg hcold, if_neg hdue]
        omega

end Pass

/-! ## Continuity -/

theorem abutting_iff (segs : List TieredSegment) :
    TieredLog.abutting segs = true ↔
      (segs.map TieredSegment.span).IsChain fun r s => r.2 = s.1 := by
  induction segs with
  | nil => exact iff_of_true rfl List.IsChain.nil
  | cons seg segs ih =>
    cases segs with
    | nil => exact iff_of_true rfl (List.IsChain.singleton _)
    | cons later segs =>
      rw [TieredLog.abutting, List.map_cons, List.map_cons, List.isChain_cons_cons, ← List.map_cons,
        ← ih]
      by_cases hnext : seg.endOffset = later.baseOffset
      · rw [if_neg (not_not.mpr hnext)]
        exact (and_iff_right hnext).symm
      · rw [if_pos hnext]
        exact iff_of_false Bool.false_ne_true fun h => hnext h.1

/-- Segments that are not empty are continuous if they do not overlap and leave no hole. -/
theorem continuous_iff {log : TieredLog}
    (hne : ∀ seg ∈ log.segments, seg.baseOffset < seg.endOffset) :
    log.continuous = true ↔ Ranges.Tiles (log.segments.map TieredSegment.span) := by
  have hperm := List.mergeSort_perm log.segments fun s t => s.baseOffset ≤ t.baseOffset
  have hsorted : ((log.segments.mergeSort fun s t => s.baseOffset ≤ t.baseOffset).map
      TieredSegment.span).Pairwise fun r s => r.1 ≤ s.1 := by
    rw [List.pairwise_map]
    refine (List.pairwise_mergeSort (fun a b c hab hbc => ?_) (fun a b => ?_) _).imp
      of_decide_eq_true
    · exact decide_eq_true ((of_decide_eq_true hab).trans (of_decide_eq_true hbc))
    · rw [Bool.or_eq_true, decide_eq_true_eq, decide_eq_true_eq]
      exact le_total _ _
  rw [TieredLog.continuous, abutting_iff, Ranges.isChain_iff_tiles ?_ hsorted]
  · exact ⟨fun h => h.perm (hperm.map _), fun h => h.perm (hperm.map _).symm⟩
  · intro r hr
    obtain ⟨seg, hseg, rfl⟩ := List.mem_map.mp hr
    exact hne seg (hperm.mem_iff.mp hseg)

/-! ## Every run -/

section Runs

variable {localWindow : ℤ} {past : List (TieredCall × TieredAnswer)} {log : TieredLog}

/-- The segments are those the calls tell of, the uploads that were verified are the cold segments,
none failed, and the store has the cold segments that no other of the same key differs from. -/
structure Tiered (localWindow : ℤ) (past : List (TieredCall × TieredAnswer)) (log : TieredLog) :
    Prop where
  window_eq : log.localWindow = localWindow
  segments_eq : log.segments = segmentsOf localWindow past
  verified : log.uploadsVerified = (log.segments.countP fun seg => seg.tier = .cold : ℕ)
  prevented : log.failedDeletesPrevented = 0
  stored seg : seg ∈ log.segments → seg.tier = .cold →
    (∀ s ∈ log.segments, s.key = seg.key → s.digest = seg.digest) →
    log.objectStore.get? seg.key = some seg.digest

/-- An event adds what it adds, and cools what it cools. -/
theorem segmentsOf_append_singleton (e : TieredCall × TieredAnswer) :
    segmentsOf localWindow (past ++ [e]) =
      ((segmentsOf localWindow past).map fun seg =>
        if Cools localWindow seg.endOffset e then { seg with tier := .cold } else seg) ++
          segmentsOf localWindow [e] := by
  induction past with
  | nil => rfl
  | cons d past ih =>
    rw [List.cons_append]
    obtain ⟨call, answer⟩ := d
    cases call with
    | addLocal base endOffset digest =>
      rw [segmentsOf, ih, segmentsOf, List.map_cons, List.cons_append]
      refine congrArg (· :: _) ?_
      dsimp only
      by_cases hcools : Cools localWindow endOffset e
      · rw [if_pos hcools, if_pos ⟨e, List.mem_append_right _ (List.mem_singleton_self e), hcools⟩]
      · rw [if_neg hcools]
        congr 1
        refine if_congr ⟨?_, ?_⟩ rfl rfl
        · rintro ⟨d, hd, hcool⟩
          rcases List.mem_append.mp hd with hd | hd
          · exact ⟨d, hd, hcool⟩
          · exact absurd (List.mem_singleton.mp hd ▸ hcool) hcools
        · rintro ⟨d, hd, hcool⟩
          exact ⟨d, List.mem_append_left _ hd, hcool⟩
    | tierOut nowEnd => exact ih
    | tierOf offset => exact ih
    | continuous => exact ih
    | coldRatio => exact ih

/-- An event that neither adds nor cools. -/
theorem Tiered.idle (h : Tiered localWindow past log) {e : TieredCall × TieredAnswer}
    (hcools : ∀ endOffset, ¬ Cools localWindow endOffset e)
    (hadds : segmentsOf localWindow [e] = []) : Tiered localWindow (past ++ [e]) log := by
  refine { h with segments_eq := ?_ }
  rw [segmentsOf_append_singleton, hadds, List.append_nil, h.segments_eq]
  refine ((List.map_congr_left fun seg _ => if_neg (hcools _)).trans ?_).symm
  exact List.map_id _

theorem Tiered.addLocal (h : Tiered localWindow past log) (base endOffset : ℤ) (digest : String) :
    Tiered localWindow (past ++ [(.addLocal base endOffset digest, .addLocal)])
      (log.addLocal base endOffset digest) where
  window_eq := h.window_eq
  segments_eq := by
    rw [segmentsOf_append_singleton, TieredLog.addLocal, h.segments_eq]
    refine congrArg₂ (· ++ ·) ((List.map_congr_left fun seg _ => if_neg id).trans ?_).symm ?_
    · exact List.map_id _
    · rw [segmentsOf, if_neg fun ⟨e, he, _⟩ => List.not_mem_nil he, segmentsOf]
  verified := by
    rw [TieredLog.addLocal]
    dsimp only
    rw [List.countP_append, h.verified]
    rfl
  prevented := h.prevented
  stored seg hseg hcold hsame := by
    rcases List.mem_append.mp hseg with hseg | hseg
    · exact h.stored seg hseg hcold fun s hs => hsame s (List.mem_append_left _ hs)
    · obtain rfl := List.mem_singleton.mp hseg
      cases hcold

theorem Tiered.tierOut (h : Tiered localWindow past log) (nowEnd : ℤ) :
    Tiered localWindow (past ++ [(.tierOut nowEnd, .tierOut (log.tierOut nowEnd).1)])
      (log.tierOut nowEnd).2 where
  window_eq := by
    rw [tierOut_eq]
    exact h.window_eq
  segments_eq := by
    rw [tierOut_eq, segmentsOf_append_singleton, h.segments_eq, h.window_eq]
    refine (List.map_congr_left fun seg _ => ?_).trans (List.append_nil _).symm
    -- one that was cold already is written down as cold again
    rw [cool]
    by_cases hbehind : localWindow < nowEnd - seg.endOffset
    · rw [if_pos (show Cools localWindow seg.endOffset (.tierOut nowEnd, _) from hbehind)]
      split
      · rfl
      · next hdue =>
        obtain ⟨base, endOffset, digest, tier⟩ := seg
        cases tier with
        | localTier => exact absurd ⟨rfl, hbehind⟩ hdue
        | cold => rfl
    · rw [if_neg fun hdue => hbehind hdue.2,
        if_neg (show ¬ Cools localWindow seg.endOffset (.tierOut nowEnd, _) from hbehind)]
  verified := by
    rw [tierOut_eq]
    dsimp only
    rw [countP_cool, h.verified, Nat.cast_add]
  prevented := by
    rw [tierOut_eq]
    exact h.prevented
  stored seg hseg hcold hsame := by
    rw [tierOut_eq] at hseg hsame ⊢
    dsimp only at hseg hsame ⊢
    obtain ⟨seg, hmem, rfl⟩ := List.mem_map.mp hseg
    have hkey : ∀ s, (cool log.localWindow nowEnd s).key = s.key := fun s => by
      rw [TieredSegment.key, (cool_eq s).1, TieredSegment.key]
    have hsame : ∀ s ∈ log.segments, s.key = seg.key → s.digest = seg.digest := fun s hs heq => by
      have hdigest := hsame _ (List.mem_map_of_mem hs) (by rw [hkey, hkey, heq])
      rwa [(cool_eq s).2.2, (cool_eq seg).2.2] at hdigest
    rw [hkey, (cool_eq seg).2.2, Dict.get?_assign]
    cases hlookup : (List.reverse ((log.segments.filter fun seg =>
        Due log.localWindow nowEnd seg).map fun seg => (seg.key, seg.digest))).lookup seg.key with
    | some digest =>
      obtain ⟨s, hs, heq⟩ := List.mem_map.mp
        (Dict.mem_of_get?_ofList ((Dict.get?_ofList _ _).trans hlookup))
      obtain ⟨hskey, rfl⟩ := Prod.mk.inj heq
      exact congrArg some (hsame s (List.mem_filter.mp hs).1 hskey)
    | none =>
      refine h.stored seg hmem ((tier_cool seg).mp hcold |>.resolve_right fun hdue => ?_) hsame
      refine Dict.lookup_eq_none_iff_not_mem.mp hlookup ?_
      rw [List.map_reverse, List.mem_reverse, List.map_map]
      exact List.mem_map_of_mem (List.mem_filter.mpr ⟨hmem, decide_eq_true hdue⟩)

theorem tiered_trace (localWindow : ℤ) (calls : List TieredCall) :
    Tiered localWindow (tieredLog.trace { localWindow } calls)
      (tieredLog.final { localWindow } calls) := by
  refine Machine.trace_always (P := Tiered localWindow)
    ⟨rfl, rfl, rfl, rfl, fun seg hseg => absurd hseg List.not_mem_nil⟩ (fun past log call h => ?_)
    calls
  cases call with
  | addLocal base endOffset digest => exact h.addLocal base endOffset digest
  | tierOut nowEnd => exact h.tierOut nowEnd
  | tierOf offset => exact h.idle (fun _ => id) rfl
  | continuous => exact h.idle (fun _ => id) rfl
  | coldRatio => exact h.idle (fun _ => id) rfl

theorem tierOf_spec (log : TieredLog) (offset : ℤ) :
    (∀ tier, log.tierOf offset = .ok tier ↔ ∃ before seg after,
        log.segments = before ++ seg :: after ∧ seg.Holds offset ∧
          (∀ s ∈ before, ¬ s.Holds offset) ∧ seg.tier = tier) ∧
      ((∀ seg ∈ log.segments, ¬ seg.Holds offset) →
        log.tierOf offset = .error (noSegment offset)) := by
  rw [TieredLog.tierOf]
  refine ⟨fun tier => ?_, fun hnone => ?_⟩
  · cases hfind : log.segments.find? fun seg => seg.Holds offset with
    | none =>
      refine iff_of_false (fun h => by cases h) ?_
      rintro ⟨before, seg, after, hsplit, hholds, -⟩
      refine List.find?_eq_none.mp hfind seg ?_ (decide_eq_true hholds)
      rw [hsplit]
      exact List.mem_append_right _ List.mem_cons_self
    | some seg =>
      obtain ⟨hholds, before, after, hsplit, hbefore⟩ := List.find?_eq_some_iff_append.mp hfind
      constructor
      · intro h
        refine ⟨before, seg, after, hsplit, of_decide_eq_true hholds, fun s hs hs' => ?_,
          Except.ok.inj h⟩
        have hnot := hbefore s hs
        rw [decide_eq_true hs'] at hnot
        cases hnot
      · rintro ⟨before', seg', after', hsplit', hholds', hbefore', rfl⟩
        have hfind' : log.segments.find? (fun seg => seg.Holds offset) = some seg' := by
          refine List.find?_eq_some_iff_append.mpr ⟨decide_eq_true hholds', before', after',
            hsplit', fun s hs => ?_⟩
          rw [decide_eq_false (hbefore' s hs)]
          rfl
        rw [Option.some.inj (hfind.symm.trans hfind')]
  · rw [List.find?_eq_none.mpr fun seg hseg hholds => hnone seg hseg (of_decide_eq_true hholds)]

/-- **Two tiers, one log.** In every run a segment is cold exactly if some pass since it was added
found it further behind than the window. An offset is in the tier of the first segment that has it,
and segments that are not empty are continuous exactly if they do not overlap and leave no hole. No
upload fails its check, and the store has all cold segments that no other of the same key differs
from. -/
theorem tieredLog_answers (localWindow : ℤ) (calls : List TieredCall) :
    Justified (TieredAnswers localWindow) (tieredLog.trace { localWindow } calls) ∧
      (tieredLog.final { localWindow } calls).failedDeletesPrevented = 0 ∧
      (tieredLog.final { localWindow } calls).uploadsVerified =
        ((segmentsOf localWindow (tieredLog.trace { localWindow } calls)).countP
          fun seg => seg.tier = .cold : ℕ) ∧
      ∀ seg ∈ segmentsOf localWindow (tieredLog.trace { localWindow } calls), seg.tier = .cold →
        (∀ s ∈ segmentsOf localWindow (tieredLog.trace { localWindow } calls),
          s.key = seg.key → s.digest = seg.digest) →
        (tieredLog.final { localWindow } calls).objectStore.get? seg.key = some seg.digest := by
  have hfinal := tiered_trace localWindow calls
  refine ⟨Machine.justified_trace (fun calls call => ?_) calls, hfinal.prevented, ?_, ?_⟩
  · have htiered := tiered_trace localWindow calls
    revert htiered
    generalize tieredLog.final { localWindow } calls = log
    generalize tieredLog.trace { localWindow } calls = past
    intro htiered
    cases call with
    | addLocal base endOffset digest => rfl
    | tierOut nowEnd =>
      refine congrArg TieredAnswer.tierOut ?_
      rw [tierOut_eq, htiered.segments_eq, htiered.window_eq]
    | tierOf offset =>
      obtain ⟨hfound, hmissing⟩ := tierOf_spec log offset
      rw [htiered.segments_eq] at hfound hmissing
      refine ⟨fun tier => ?_, fun hnone => congrArg TieredAnswer.tierOf (hmissing hnone)⟩
      rw [← hfound]
      exact ⟨fun h => TieredAnswer.tierOf.inj h, fun h => congrArg TieredAnswer.tierOf h⟩
    | continuous =>
      refine ⟨_, rfl, fun hne => ?_⟩
      rw [← htiered.segments_eq] at hne ⊢
      exact continuous_iff hne
    | coldRatio =>
      refine congrArg TieredAnswer.coldRatio ?_
      rw [TieredLog.coldRatio, htiered.segments_eq]
  · rw [← hfinal.segments_eq]
    exact hfinal.verified
  · rw [← hfinal.segments_eq]
    exact fun seg hseg => hfinal.stored seg hseg

end Runs

end Relay
