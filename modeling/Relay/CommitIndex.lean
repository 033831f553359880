import Mathlib.Data.Int.Order.Basic
import Mathlib.Order.Lattice
import Relay.Errors
import Relay.Lib.Dict
import Relay.Lib.Machine

/-!
# The commit index

A leader commits an entry of its own term once a majority holds it. An entry of an earlier term is
committed only together with an entry of the current term further on, since a majority alone does
not protect it from the next leader.

So the commit index should never stand anywhere but at an entry of the current term which a
majority was reported to hold (`Backed`). Two calls can put it elsewhere:
`commit_prior_via_current` takes the majority for granted, and `try_advance` refuses only entries
of terms below the current one. The commit index is backed in every state of a run exactly when
no call of these two kinds ever raises it (`Backs`).

## Main definitions

* `CommitIndex`, with `tryAdvance` and `commitPriorViaCurrent`
* `Backed`: the commit index is `0`, or at a current-term entry that a majority was reported for
* `Backs`: the call reports the majority itself, or does not raise the commit index

## Main results

* `backed_iff`
-/

namespace Relay

/-- The term of each entry by its index, and how far the log is committed. -/
structure CommitIndex where
  currentTerm : ℤ
  entryTerms : Dict ℤ ℤ := ∅
  voters : ℤ := 3
  commitIndex : ℤ := 0
  deriving DecidableEq

namespace CommitIndex

/-- `majority`. -/
def majority (ci : CommitIndex) : ℤ := ci.voters / 2 + 1

/-- `try_advance`. -/
def tryAdvance (ci : CommitIndex) (index replicaCount : ℤ) :
    Except RelayError String × CommitIndex :=
  match ci.entryTerms.get? index with
  | none => (.error (.invalid s!"no entry at index {index}"), ci)
  | some entryTerm =>
    if replicaCount < ci.majority then
      (.error (.invalid (s!"index {index} on only {replicaCount} of {ci.voters}, "
        ++ s!"below majority {ci.majority}; not committable yet")), ci)
    else if entryTerm < ci.currentTerm then
      (.error (.invalid (s!"index {index} is from term {entryTerm}, older than the "
        ++ s!"current {ci.currentTerm}; committing it directly is the "
        ++ "figure-8 bug, a new leader could overwrite it; commit a "
        ++ "current-term entry beyond it first")), ci)
    else
      (.ok s!"committed to index {index} (current-term entry, majority holds it)",
        { ci with commitIndex := max ci.commitIndex index })

/-- `commit_prior_via_current`. -/
def commitPriorViaCurrent (ci : CommitIndex) (priorIndex currentIndex : ℤ) :
    Except RelayError String × CommitIndex :=
  if ci.entryTerms.get? currentIndex ≠ some ci.currentTerm then
    (.error (.invalid (s!"index {currentIndex} is not a current-term entry; it cannot "
      ++ "carry a prior-term entry to commit")), ci)
  else if currentIndex < priorIndex then
    (.error (.invalid "the current-term entry must be beyond the prior one"), ci)
  else
    (.ok (s!"committed through {currentIndex}; the prior-term entry at "
      ++ s!"{priorIndex} is now safely committed by log matching"),
      { ci with commitIndex := max ci.commitIndex currentIndex })

end CommitIndex

/-! ## Runs -/

/-- The two calls. -/
inductive CommitCall where
  | tryAdvance (index replicaCount : ℤ)
  | commitPriorViaCurrent (priorIndex currentIndex : ℤ)
  deriving DecidableEq

/-- The tracker as a component. -/
def commitMachine : Machine CommitIndex CommitCall (Except RelayError String) where
  step ci
    | .tryAdvance index replicaCount => ci.tryAdvance index replicaCount
    | .commitPriorViaCurrent priorIndex currentIndex =>
      ci.commitPriorViaCurrent priorIndex currentIndex

/-- The index a call commits to. -/
def CommitCall.target : CommitCall → ℤ
  | .tryAdvance index _ => index
  | .commitPriorViaCurrent _ currentIndex => currentIndex

/-- The checks a call makes before it commits. -/
def Commits (ci : CommitIndex) : CommitCall → Prop
  | .tryAdvance index replicaCount => ci.majority ≤ replicaCount ∧
      ∃ entryTerm, ci.entryTerms.get? index = some entryTerm ∧ ci.currentTerm ≤ entryTerm
  | .commitPriorViaCurrent priorIndex currentIndex =>
      ci.entryTerms.get? currentIndex = some ci.currentTerm ∧ priorIndex ≤ currentIndex

/-- The call reports a majority for an entry of the current term. -/
def ReportsMajority (ci : CommitIndex) : CommitCall → Prop
  | .tryAdvance index replicaCount =>
      ci.majority ≤ replicaCount ∧ ci.entryTerms.get? index = some ci.currentTerm
  | .commitPriorViaCurrent _ _ => False

/-- A call that commits reports the majority itself, or names an index that is committed already. -/
def Backs (ci : CommitIndex) (call : CommitCall) : Prop :=
  Commits ci call → ReportsMajority ci call ∨ call.target ≤ ci.commitIndex

/-- The commit index is where it started, or at an entry of the current term for which some call
has reported a majority. -/
def Backed (past : List CommitCall) (ci : CommitIndex) : Prop :=
  ci.commitIndex = 0 ∨ ∃ replicaCount, .tryAdvance ci.commitIndex replicaCount ∈ past ∧
    ci.majority ≤ replicaCount ∧ ci.entryTerms.get? ci.commitIndex = some ci.currentTerm

section Step

variable {ci : CommitIndex} {call : CommitCall}

theorem step_of_commits (h : Commits ci call) : (commitMachine.step ci call).2 =
    { ci with commitIndex := max ci.commitIndex call.target } := by
  cases call with
  | tryAdvance index replicaCount =>
    obtain ⟨hmajority, entryTerm, hget, hterm⟩ := h
    show (ci.tryAdvance index replicaCount).2 = _
    simp only [CommitIndex.tryAdvance, hget]
    rw [if_neg (not_lt.mpr hmajority), if_neg (not_lt.mpr hterm)]
    rfl
  | commitPriorViaCurrent priorIndex currentIndex =>
    show (ci.commitPriorViaCurrent priorIndex currentIndex).2 = _
    rw [CommitIndex.commitPriorViaCurrent, if_neg (not_not.mpr h.1), if_neg (not_lt.mpr h.2)]
    rfl

theorem step_of_not_commits (h : ¬ Commits ci call) : (commitMachine.step ci call).2 = ci := by
  cases call with
  | tryAdvance index replicaCount =>
    show (ci.tryAdvance index replicaCount).2 = ci
    rw [CommitIndex.tryAdvance]
    split
    · rfl
    · next entryTerm hget =>
      split
      · rfl
      · next hmajority =>
        split
        · rfl
        · next hterm =>
          exact absurd ⟨not_lt.mp hmajority, entryTerm, hget, not_lt.mp hterm⟩ h
  | commitPriorViaCurrent priorIndex currentIndex =>
    show (ci.commitPriorViaCurrent priorIndex currentIndex).2 = ci
    rw [CommitIndex.commitPriorViaCurrent]
    split
    · rfl
    · next hcurrent =>
      split
      · rfl
      · next hle => exact absurd ⟨not_not.mp hcurrent, not_lt.mp hle⟩ h

/-- A call that reports a majority commits. -/
theorem ReportsMajority.commits (h : ReportsMajority ci call) : Commits ci call := by
  cases call with
  | tryAdvance index replicaCount => exact ⟨h.1, ci.currentTerm, h.2, le_rfl⟩
  | commitPriorViaCurrent priorIndex currentIndex => exact h.elim

/-- A call changes none of the fields that say what a majority report is. -/
theorem reportsMajority_step_iff {report : CommitCall} :
    ReportsMajority (commitMachine.step ci call).2 report ↔ ReportsMajority ci report := by
  by_cases h : Commits ci call
  · rw [step_of_commits h]
    cases report <;> exact Iff.rfl
  · rw [step_of_not_commits h]

end Step

theorem backed_iff_exists_report {past : List CommitCall} {ci : CommitIndex} :
    Backed past ci ↔ ci.commitIndex = 0 ∨
      ∃ report ∈ past, ReportsMajority ci report ∧ report.target = ci.commitIndex := by
  refine or_congr_right ⟨?_, ?_⟩
  · rintro ⟨replicaCount, hmem, hreport⟩
    exact ⟨_, hmem, hreport, rfl⟩
  · rintro ⟨report, hmem, hreport, htarget⟩
    cases report with
    | tryAdvance index replicaCount =>
      obtain rfl : index = ci.commitIndex := htarget
      exact ⟨replicaCount, hmem, hreport⟩
    | commitPriorViaCurrent priorIndex currentIndex => exact hreport.elim

/-- The commit index is no lower than where it started, and no lower than any entry of the current
term that a majority was reported for. -/
structure ReachesReports (past : List CommitCall) (ci : CommitIndex) : Prop where
  nonneg : 0 ≤ ci.commitIndex
  report_le : ∀ report ∈ past, ReportsMajority ci report → report.target ≤ ci.commitIndex

/-- One call lowers nothing, and the call's own report is reached by it. -/
theorem ReachesReports.step {past : List CommitCall} {ci : CommitIndex}
    (h : ReachesReports past ci) (call : CommitCall) :
    ReachesReports (past ++ [call]) (commitMachine.step ci call).2 := by
  have hle : ci.commitIndex ≤ (commitMachine.step ci call).2.commitIndex := by
    by_cases hcommits : Commits ci call
    · rw [step_of_commits hcommits]
      exact le_max_left _ _
    · rw [step_of_not_commits hcommits]
  refine ⟨h.nonneg.trans hle, fun report hmem hreport => ?_⟩
  rw [reportsMajority_step_iff] at hreport
  rcases List.mem_append.mp hmem with hmem | hmem
  · exact (h.report_le report hmem hreport).trans hle
  · obtain rfl := List.mem_singleton.mp hmem
    rw [step_of_commits hreport.commits]
    exact le_max_right _ _

theorem reachesReports_final {ci : CommitIndex} (hci : 0 ≤ ci.commitIndex)
    (calls : List CommitCall) : ReachesReports calls (commitMachine.final ci calls) := by
  induction calls using List.reverseRecOn with
  | nil => exact ⟨hci, fun _ hmem => nomatch hmem⟩
  | append_singleton calls call ih =>
    rw [Machine.final_append_singleton]
    exact ih.step call

/-- Where the commit index is backed and reaches all reports, it stays backed over a call exactly
when the call backs it. -/
theorem backs_iff_backed_step {past : List CommitCall} {ci : CommitIndex}
    (hreaches : ReachesReports past ci) (hbacked : Backed past ci) (call : CommitCall) :
    Backs ci call ↔ Backed (past ++ [call]) (commitMachine.step ci call).2 := by
  rw [backed_iff_exists_report] at hbacked ⊢
  simp only [reportsMajority_step_iff]
  have hstays : (commitMachine.step ci call).2.commitIndex = ci.commitIndex →
      (commitMachine.step ci call).2.commitIndex = 0 ∨ ∃ report ∈ past ++ [call],
        ReportsMajority ci report ∧
          report.target = (commitMachine.step ci call).2.commitIndex := by
    intro hsame
    rw [hsame]
    refine hbacked.imp_right ?_
    rintro ⟨report, hmem, hreport⟩
    exact ⟨report, List.mem_append_left _ hmem, hreport⟩
  by_cases hcommits : Commits ci call
  · have hstep : (commitMachine.step ci call).2.commitIndex = max ci.commitIndex call.target := by
      rw [step_of_commits hcommits]
    rcases le_or_gt call.target ci.commitIndex with hle | hgt
    · exact iff_of_true (fun _ => Or.inr hle) (hstays (hstep.trans (max_eq_left hle)))
    · -- the commit index moves to the target, which no earlier report reaches
      rw [hstep, max_eq_right hgt.le]
      constructor
      · intro hbacks
        have hreport := (hbacks hcommits).resolve_right (not_le.mpr hgt)
        exact Or.inr ⟨call, by simp, hreport, rfl⟩
      · rintro (hzero | ⟨report, hmem, hreport, htarget⟩) _
        · exact absurd hreaches.nonneg (not_le.mpr (hzero ▸ hgt))
        · rcases List.mem_append.mp hmem with hmem | hmem
          · exact absurd (hreaches.report_le report hmem hreport) (not_le.mpr (htarget ▸ hgt))
          · exact Or.inl (List.mem_singleton.mp hmem ▸ hreport)
  · refine iff_of_true (fun h => absurd h hcommits) (hstays ?_)
    rw [step_of_not_commits hcommits]

/-- **What is committed.** Start a tracker at commit index `0`, with any current term, entries and
number of voters. In every state along a run of calls the commit index is `0` or an entry of the
current term for which a call has reported a majority, if and only if every call that passes its
own checks reports such a majority itself or names an index no higher than the commit index. -/
theorem backed_iff (currentTerm : ℤ) (entryTerms : Dict ℤ ℤ) (voters : ℤ)
    (calls : List CommitCall) :
    (∀ past, past <+: calls →
        Backed past (commitMachine.final ⟨currentTerm, entryTerms, voters, 0⟩ past)) ↔
      commitMachine.Guarded Backs ⟨currentTerm, entryTerms, voters, 0⟩ calls := by
  rw [Machine.guarded_iff_justified]
  refine (justified_iff_forall_past (Or.inl rfl) fun past call _ hbacked => ?_).symm
  rw [Machine.final_append_singleton]
  exact backs_iff_backed_step (reachesReports_final le_rfl past) hbacked call

/-- With three voters and one entry of the current term that nobody was reported to hold, the entry
is committed as the carrier of an earlier one. -/
theorem not_backed_commitPriorViaCurrent :
    ¬ ∀ past, past <+: [CommitCall.commitPriorViaCurrent 1 2] →
      Backed past (commitMachine.final ⟨2, ⟨[(1, 1), (2, 2)], by decide⟩, 3, 0⟩ past) := by
  intro hbacked
  have hend := hbacked _ List.prefix_rfl
  rw [backed_iff_exists_report] at hend
  rcases hend with hzero | ⟨report, hmem, hreport, -⟩
  · exact absurd hzero (by decide)
  · rw [List.mem_singleton.mp hmem] at hreport
    exact hreport

end Relay
