import Mathlib.Data.Int.Order.Basic
import Mathlib.Logic.Function.Basic
import Relay.Errors
import Relay.Lib.Dict
import Relay.Lib.Machine
import Relay.Lib.Matching

/-!
# Log matching

A follower appends a batch only where its log holds the term that the leader says precedes the
batch. It then drops everything after that index and takes the leader's entries.

Followers match each other because of where their logs come from: at any time a follower's log is
some leader's log, cut off somewhere (`FollowsLeaders`). An append keeps this, possibly for
another leader, since at the agreed index the two leaders' logs are cut to the same log.

## Scope

The follower's report on how far it is behind the leader is left out.

## Main definitions

* `FollowerLog`, with `append` and `agreementPoint`
* `CarriesSlice`: what a batch is when it comes from a leader

## Main results

* `followers_match`: followers fed from matching leaders match each other and the leaders
* `FollowerLog.le_agreementPoint_iff`: the follower holds the leader's log exactly up to there
-/

namespace Relay

/-- The term of each entry by its index. -/
structure FollowerLog where
  entries : Dict ℤ ℤ := ∅
  deriving DecidableEq

namespace FollowerLog

/-- The text of `have`, as it is printed when the log holds nothing at an index. -/
def showTerm : Option ℤ → String
  | none => "None"
  | some term => toString term

/-- `append`. -/
def append (log : FollowerLog) (prevIndex prevTerm : ℤ) (new : Dict ℤ ℤ) :
    Except RelayError String × FollowerLog :=
  if prevIndex > 0 ∧ log.entries.get? prevIndex ≠ some prevTerm then
    (.error (.invalid (s!"log mismatch at index {prevIndex}: have term "
      ++ s!"{showTerm (log.entries.get? prevIndex)}, "
      ++ s!"leader expects {prevTerm}; reject so the leader backs up")), log)
  else
    (.ok s!"appended after index {prevIndex}; divergent tail truncated",
      ⟨(log.entries.filter fun index _ => index ≤ prevIndex).update new⟩)

/-- The loop of `agreement_point`, over the leader's indexes in order. -/
def agreementLoop (entries leader : Dict ℤ ℤ) (point : ℤ) : List ℤ → ℤ
  | [] => point
  | index :: rest =>
    if entries.get? index = leader.get? index then agreementLoop entries leader index rest
    else point

/-- `agreement_point`. -/
def agreementPoint (log : FollowerLog) (leader : Dict ℤ ℤ) : ℤ :=
  agreementLoop log.entries leader 0 (leader.keys.mergeSort fun i j => i ≤ j)

/-- What a successful append leaves. -/
theorem get?_append {log : FollowerLog} {prevIndex prevTerm : ℤ} {new : Dict ℤ ℤ}
    (h : ¬ (prevIndex > 0 ∧ log.entries.get? prevIndex ≠ some prevTerm)) :
    (log.append prevIndex prevTerm new).2.entries.get? = fun index =>
      (new.get? index).or (cut log.entries.get? prevIndex index) := by
  funext index
  have hkept : (log.entries.filter fun index _ => index ≤ prevIndex).get? index =
      cut log.entries.get? prevIndex index := by
    rw [Dict.get?_filter]
    rcases le_or_gt index prevIndex with hle | hgt
    · rw [cut_of_le hle]
      cases log.entries.get? index <;> simp [hle]
    · rw [cut_of_lt hgt]
      cases log.entries.get? index <;> simp [hgt]
  rw [append, if_neg h, Dict.get?_update, hkept]

end FollowerLog

/-! ## Many followers -/

/-- A batch sent to one of the followers. -/
structure AppendCall (φ : Type*) where
  follower : φ
  prevIndex : ℤ
  prevTerm : ℤ
  new : Dict ℤ ℤ

section Followers

variable {φ ν : Type*} [DecidableEq φ]

/-- The followers as one component. -/
def followersMachine : Machine (φ → FollowerLog) (AppendCall φ) (Except RelayError String) where
  step logs call :=
    let result := (logs call.follower).append call.prevIndex call.prevTerm call.new
    (result.1, Function.update logs call.follower result.2)

/-- A refused batch changes nothing. -/
theorem step_of_refused {logs : φ → FollowerLog} {call : AppendCall φ}
    (h : call.prevIndex > 0 ∧
      (logs call.follower).entries.get? call.prevIndex ≠ some call.prevTerm) :
    ∃ error, followersMachine.step logs call = (.error error, logs) := by
  simp only [followersMachine, FollowerLog.append, if_pos h, Function.update_eq_self]
  exact ⟨_, rfl⟩

/-- An accepted batch changes the log of its follower, and no other. -/
theorem step_of_accepted {logs : φ → FollowerLog} {call : AppendCall φ}
    (h : ¬ (call.prevIndex > 0 ∧
      (logs call.follower).entries.get? call.prevIndex ≠ some call.prevTerm)) :
    (∃ answer, (followersMachine.step logs call).1 = .ok answer) ∧
      ∀ a, ((followersMachine.step logs call).2 a).entries.get? =
        if call.follower = a then fun index => (call.new.get? index).or
          (cut (logs a).entries.get? call.prevIndex index)
        else (logs a).entries.get? := by
  constructor
  · simp only [followersMachine, FollowerLog.append, if_neg h]
    exact ⟨_, rfl⟩
  · intro a
    show (Function.update logs call.follower ((logs call.follower).append call.prevIndex
      call.prevTerm call.new).2 a).entries.get? = _
    by_cases hsame : call.follower = a
    · subst hsame
      rw [Function.update_self, if_pos rfl, FollowerLog.get?_append h]
    · rw [Function.update_of_ne (Ne.symm hsame), if_neg hsame]

/-- The log holds exactly the indexes from `1` to some last one. -/
def Contiguous (log : Dict ℤ ℤ) : Prop :=
  ∃ last : ℕ, ∀ index, (log.get? index).isSome = true ↔ 1 ≤ index ∧ index ≤ last

/-- The batch is a slice of some leader's log, right after `prev_index`, together with that
leader's term there. -/
def CarriesSlice (leader : ν → Dict ℤ ℤ) (call : AppendCall φ) : Prop :=
  ∃ (l : ν) (n : ℕ),
    (∀ index, call.new.get? index =
      if call.prevIndex < index ∧ index ≤ call.prevIndex + n then (leader l).get? index
      else none) ∧
    (call.prevIndex > 0 → (leader l).get? call.prevIndex = some call.prevTerm)

/-- Only a batch that carries a slice is appended. -/
def AppendsSlices (leader : ν → Dict ℤ ℤ) (logs : φ → FollowerLog) (call : AppendCall φ) : Prop :=
  (∃ answer, (followersMachine.step logs call).1 = .ok answer) → CarriesSlice leader call

/-- A log that is empty, or a leader's log cut off somewhere. -/
def FollowsLeaders (leader : ν → Dict ℤ ℤ) (log : FollowerLog) : Prop :=
  (log.entries.get? = fun _ => none) ∨ ∃ l n, log.entries.get? = cut (leader l).get? n

/-- No leader has an entry before index `1`. -/
theorem Contiguous.get?_eq_none {log : Dict ℤ ℤ} (h : Contiguous log) {index : ℤ}
    (hindex : index ≤ 0) : log.get? index = none := by
  obtain ⟨last, hlast⟩ := h
  rw [← Option.not_isSome_iff_eq_none, hlast]
  omega

section Appends

variable {leader : ν → Dict ℤ ℤ} (hcontiguous : ∀ l, Contiguous (leader l))
  (hmatching : ∀ l l', Matching (leader l).get? (leader l').get?)
include hcontiguous hmatching

/-- Up to an index at which it holds a leader's term, or up to an index before the first, a log
cut from any leader's is the same as that leader's. -/
theorem FollowsLeaders.cut_eq {log : FollowerLog} (h : FollowsLeaders leader log) {l : ν}
    {prevIndex prevTerm : ℤ}
    (hlog : ¬ (prevIndex > 0 ∧ log.entries.get? prevIndex ≠ some prevTerm))
    (hleader : prevIndex > 0 → (leader l).get? prevIndex = some prevTerm) :
    cut log.entries.get? prevIndex = cut (leader l).get? prevIndex := by
  rcases le_or_gt prevIndex 0 with hstart | hpos
  · funext index
    rcases le_or_gt index prevIndex with hle | hgt
    · rw [cut_of_le hle, cut_of_le hle, (hcontiguous l).get?_eq_none (hle.trans hstart)]
      rcases h with hempty | ⟨l', n, hcut⟩
      · rw [hempty]
      · rw [hcut, Relay.cut, (hcontiguous l').get?_eq_none (hle.trans hstart), ite_self]
    · rw [cut_of_lt hgt, cut_of_lt hgt]
  · have hheld : log.entries.get? prevIndex = some prevTerm := by
      by_contra hne
      exact hlog ⟨hpos, hne⟩
    rcases h with hempty | ⟨l', n, hcut⟩
    · rw [hempty] at hheld
      cases hheld
    · rw [hcut] at hheld ⊢
      obtain ⟨hle, hheld⟩ := cut_eq_some_iff.mp hheld
      rw [cut_cut_of_le _ hle]
      exact (hmatching l' l).cut_eq hheld (hleader hpos)

/-- One append keeps every follower's log a leader's log, cut off somewhere. -/
theorem FollowsLeaders.step {logs : φ → FollowerLog} (h : ∀ a, FollowsLeaders leader (logs a))
    {call : AppendCall φ} (hcall : AppendsSlices leader logs call) (a : φ) :
    FollowsLeaders leader ((followersMachine.step logs call).2 a) := by
  by_cases hrefused : call.prevIndex > 0 ∧
      (logs call.follower).entries.get? call.prevIndex ≠ some call.prevTerm
  · obtain ⟨error, hstep⟩ := step_of_refused hrefused
    rw [hstep]
    exact h a
  · obtain ⟨haccepted, hget⟩ := step_of_accepted hrefused
    rw [FollowsLeaders, hget a]
    by_cases hsame : call.follower = a
    · subst hsame
      rw [if_pos rfl]
      obtain ⟨l, n, hnew, hprev⟩ := hcall haccepted
      refine Or.inr ⟨l, call.prevIndex + n, ?_⟩
      rw [(h call.follower).cut_eq hcontiguous hmatching hrefused hprev]
      funext index
      -- the batch fills the cut up from `prev_index`
      rw [hnew]
      rcases le_or_gt index call.prevIndex with hle | hgt
      · rw [if_neg (fun hc => absurd hle (not_le.mpr hc.1)), Option.none_or, cut_of_le hle,
          cut_of_le (by omega)]
      · rw [cut_of_lt hgt, Option.or_none]
        simp only [Relay.cut, hgt, true_and]
    · rw [if_neg hsame]
      exact h a

end Appends

/-- **Log matching.** Start any number of followers empty, and let every batch that is appended be
a slice of one of the leaders' logs, which are contiguous and match pairwise. After every such
run any two followers match, and every follower matches every leader. -/
theorem followers_match (leader : ν → Dict ℤ ℤ) (hcontiguous : ∀ l, Contiguous (leader l))
    (hmatching : ∀ l l', Matching (leader l).get? (leader l').get?) (calls : List (AppendCall φ))
    (hslices : followersMachine.Guarded (AppendsSlices leader) (fun _ => {}) calls) :
    (∀ a b, Matching (followersMachine.final (fun _ => {}) calls a).entries.get?
        (followersMachine.final (fun _ => {}) calls b).entries.get?) ∧
      ∀ a l, Matching (followersMachine.final (fun _ => {}) calls a).entries.get?
        (leader l).get? := by
  have hfollows : ∀ a, FollowsLeaders leader (followersMachine.final (fun _ => {}) calls a) :=
    Machine.invariant (P := fun logs : φ → FollowerLog => ∀ a, FollowsLeaders leader (logs a))
      (fun _ => Or.inl rfl)
      (fun _ _ h hcall => FollowsLeaders.step hcontiguous hmatching h hcall) hslices
  constructor
  · intro a b
    rcases hfollows a with ha | ⟨l, m, ha⟩
    · rw [ha]
      exact Matching.none_left _
    · rcases hfollows b with hb | ⟨l', n, hb⟩
      · rw [hb]
        exact (Matching.none_left _).symm
      · rw [ha, hb]
        exact (hmatching l l').cut m n
  · intro a l
    rcases hfollows a with ha | ⟨l', m, ha⟩
    · rw [ha]
      exact Matching.none_left _
    · rw [ha]
      exact (hmatching l' l).cut_left m

end Followers

/-- Two leaders that share their first entry: the second was elected in term `2`. -/
def twoLeaders : Bool → Dict ℤ ℤ
  | false => ⟨[(1, 1), (2, 1)], by decide⟩
  | true => ⟨[(1, 1), (2, 2)], by decide⟩

theorem get?_twoLeaders (l : Bool) (index : ℤ) :
    (twoLeaders l).get? index =
      if index = 1 then some 1 else if index = 2 then some (if l then 2 else 1) else none := by
  cases l <;> simp [twoLeaders, Dict.get?, Dict.lookup_cons_ite]

theorem contiguous_twoLeaders (l : Bool) : Contiguous (twoLeaders l) := by
  refine ⟨2, fun index => ?_⟩
  rw [get?_twoLeaders]
  split_ifs <;> simp <;> omega

theorem matching_twoLeaders (l l' : Bool) :
    Matching (twoLeaders l).get? (twoLeaders l').get? := by
  intro i t hf hg j hj
  rw [get?_twoLeaders] at hf hg ⊢
  rw [get?_twoLeaders]
  grind

/-- A follower takes both entries of the first leader, another only the shared one, and after the
failover the second leader replaces the entry of the first follower that diverged. -/
def failover : List (AppendCall Bool) :=
  [⟨false, 0, 0, ⟨[(1, 1), (2, 1)], by decide⟩⟩, ⟨true, 0, 0, ⟨[(1, 1)], by decide⟩⟩,
    ⟨false, 1, 1, ⟨[(2, 2)], by decide⟩⟩]

theorem appendsSlices_failover :
    followersMachine.Guarded (AppendsSlices twoLeaders) (fun _ => {}) failover := by
  refine ⟨fun _ => ⟨false, 2, fun index => ?_, fun h => absurd h (by decide)⟩,
    fun _ => ⟨false, 1, fun index => ?_, fun h => absurd h (by decide)⟩,
    fun _ => ⟨true, 1, fun index => ?_, fun _ => by decide⟩, trivial⟩
  all_goals
    rw [get?_twoLeaders]
    simp only [Dict.get?, Dict.lookup_cons_ite, List.lookup_nil]
    grind

/-- The followers of this run match, and the first one has taken over the second leader's log. -/
theorem followers_match_failover :
    (∀ a b, Matching (followersMachine.final (fun _ => {}) failover a).entries.get?
        (followersMachine.final (fun _ => {}) failover b).entries.get?) ∧
      (followersMachine.final (fun _ => {}) failover false).entries = twoLeaders true :=
  ⟨(followers_match twoLeaders contiguous_twoLeaders matching_twoLeaders failover
    appendsSlices_failover).1, by decide⟩

/-! ## The agreement point -/

namespace FollowerLog

variable {entries leader : Dict ℤ ℤ}

theorem le_agreementLoop {indexes : List ℤ} (hsorted : indexes.Pairwise (· ≤ ·)) {point : ℤ}
    (hpoint : ∀ index ∈ indexes, point ≤ index) :
    point ≤ agreementLoop entries leader point indexes := by
  induction indexes generalizing point with
  | nil => exact le_rfl
  | cons index rest ih =>
    obtain ⟨hindex, hrest⟩ := List.pairwise_cons.mp hsorted
    rw [agreementLoop]
    split
    · exact (hpoint index List.mem_cons_self).trans (ih hrest hindex)
    · exact le_rfl

/-- Everything the loop has passed agrees. -/
theorem get?_eq_of_le_agreementLoop {indexes : List ℤ} (hsorted : indexes.Pairwise (· ≤ ·))
    {point : ℤ} (hpoint : ∀ index ∈ indexes, index ≤ point →
      entries.get? index = leader.get? index) {index : ℤ} (hmem : index ∈ indexes)
    (hle : index ≤ agreementLoop entries leader point indexes) :
    entries.get? index = leader.get? index := by
  induction indexes generalizing point with
  | nil => cases hmem
  | cons first rest ih =>
    obtain ⟨hfirst, hrest⟩ := List.pairwise_cons.mp hsorted
    rw [agreementLoop] at hle
    split at hle
    · next hagree =>
      rcases List.mem_cons.mp hmem with rfl | hmem
      · exact hagree
      · refine ih hrest (fun i hi hle => ?_) hmem hle
        rw [le_antisymm hle (hfirst i hi), hagree]
    · exact hpoint index hmem hle

/-- The loop passes an index up to which everything agrees. -/
theorem le_agreementLoop_of_agree {indexes : List ℤ} (hsorted : indexes.Pairwise (· ≤ ·))
    {point index : ℤ} (hmem : index ∈ indexes)
    (hagree : ∀ i ∈ indexes, i ≤ index → entries.get? i = leader.get? i) :
    index ≤ agreementLoop entries leader point indexes := by
  induction indexes generalizing point with
  | nil => cases hmem
  | cons first rest ih =>
    obtain ⟨hfirst, hrest⟩ := List.pairwise_cons.mp hsorted
    have hle : first ≤ index := by
      rcases List.mem_cons.mp hmem with rfl | hmem
      · exact le_rfl
      · exact hfirst index hmem
    rw [agreementLoop, if_pos (hagree first List.mem_cons_self hle)]
    rcases List.mem_cons.mp hmem with rfl | hmem
    · exact le_agreementLoop hrest hfirst
    · exact ih hrest hmem fun i hi => hagree i (List.mem_cons_of_mem first hi)

/-- **The agreement point** of a follower and a leader whose logs match: the follower holds the
leader's entry at an index exactly when the index is not past it. -/
theorem le_agreementPoint_iff (log : FollowerLog) (hleader : Contiguous leader)
    (hmatching : Matching log.entries.get? leader.get?) {index term : ℤ}
    (hterm : leader.get? index = some term) :
    index ≤ log.agreementPoint leader ↔ log.entries.get? index = some term := by
  have hsorted : (leader.keys.mergeSort fun i j => i ≤ j).Pairwise (· ≤ ·) :=
    leader.pairwise_lt_mergeSort_keys.imp le_of_lt
  have hkeys : ∀ i, i ∈ (leader.keys.mergeSort fun i j => i ≤ j) ↔ ∃ t, leader.get? i = some t := by
    intro i
    rw [List.mem_mergeSort, Dict.mem_keys_iff]
  constructor
  · intro hle
    rw [← hterm]
    refine get?_eq_of_le_agreementLoop hsorted (fun i hi hle => ?_) ((hkeys index).mpr ⟨_, hterm⟩)
      hle
    obtain ⟨t, ht⟩ := (hkeys i).mp hi
    rw [hleader.get?_eq_none hle] at ht
    cases ht
  · intro hheld
    exact le_agreementLoop_of_agree hsorted ((hkeys index).mpr ⟨_, hterm⟩) fun i _ hle =>
      hmatching index term hheld hterm i hle

end FollowerLog

end Relay
