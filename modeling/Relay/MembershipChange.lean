import Relay.Errors
import Relay.Lib.Quorum

/-!
# Membership changes

While the set of voters changes, some nodes count majorities of the old set and some of the new
one. The change is safe if no majority of the one is disjoint from a majority of the other, which
`change_to` ensures by moving a single voter at a time.

## Scope

The run of the source over two fixed changes of one cluster is left out. It lists all pairs of
majorities, and the statement here is about all clusters.

## Main definitions

* `Membership`, with `majority`, `changeTo` and `failuresTolerated`

## Main results

* `quorums_meet_changeTo`: across an accepted change all majorities meet
* `Membership.isQuorum_sdiff_of_failuresTolerated`: the failures a membership tolerates
-/

namespace Relay

open scoped symmDiff

/-- The nodes that vote. There is at least one. -/
structure Membership where
  voters : Finset String
  nonempty : voters.Nonempty

namespace Membership

/-- `Membership(voters)`. -/
def new (voters : Finset String) : Except RelayError Membership :=
  if h : voters.Nonempty then .ok ⟨voters, h⟩
  else .error (.invalid "a voter set cannot be empty")

/-- `majority`. -/
def majority (membership : Membership) : ℕ := membership.voters.card / 2 + 1

/-- `change_to`. -/
def changeTo (membership : Membership) (proposed : Finset String) :
    Except RelayError String × Membership :=
  if h : proposed.Nonempty then
    let diff := (membership.voters ∆ proposed).card
    if diff = 0 then (.ok "no change", membership)
    else if diff > 1 then
      (.error (.invalid (s!"the change moves {diff} voters at once; two disjoint "
        ++ "majorities could form and elect two leaders, a split brain; "
        ++ "change one voter at a time")), membership)
    else
      let changed : Membership := ⟨proposed, h⟩
      (.ok (s!"changed by one voter; majority {membership.majority} -> {changed.majority}, "
        ++ "every old and new majority still overlapping, safe"), changed)
  else
    (.error (.invalid "cannot change to an empty voter set; it elects no one"), membership)

/-- `failures_tolerated`. -/
def failuresTolerated (membership : Membership) : ℕ :=
  membership.voters.card - membership.majority

/-- An accepted change leaves the proposed voters, which differ from the old ones in at most one
node. -/
theorem changeTo_of_ok {membership : Membership} {proposed : Finset String} {answer : String}
    (h : (membership.changeTo proposed).1 = .ok answer) :
    (membership.changeTo proposed).2.voters = proposed ∧
      (membership.voters ∆ proposed).card ≤ 1 := by
  by_cases hnonempty : proposed.Nonempty
  · simp only [changeTo, dif_pos hnonempty] at h ⊢
    by_cases hdiff : (membership.voters ∆ proposed).card = 0
    · rw [if_pos hdiff]
      exact ⟨Finset.symmDiff_eq_empty.mp (Finset.card_eq_zero.mp hdiff), by omega⟩
    · rw [if_neg hdiff] at h ⊢
      split at h
      · cases h
      · next hone =>
        rw [if_neg hone]
        exact ⟨rfl, not_lt.mp hone⟩
  · rw [changeTo, dif_neg hnonempty] at h
    cases h

/-- Whichever of the voters fail, a majority survives exactly if they are no more than are
tolerated. -/
theorem isQuorum_sdiff_of_failuresTolerated (membership : Membership) {failed : Finset String}
    (hfailed : failed ⊆ membership.voters) :
    IsQuorum membership.voters (membership.voters \ failed) ↔
      failed.card ≤ membership.failuresTolerated := by
  have hpos : 0 < membership.voters.card := membership.nonempty.card_pos
  rw [isQuorum_sdiff_iff hfailed, failuresTolerated, majority]
  omega

end Membership

/-- **No two disjoint majorities.** When a change is accepted, the membership afterwards has the
proposed voters, and every majority of the old voters meets every majority of the new ones. -/
theorem quorums_meet_changeTo (membership : Membership) (proposed : Finset String)
    (haccepted : ∃ answer, (membership.changeTo proposed).1 = .ok answer) :
    (membership.changeTo proposed).2.voters = proposed ∧
      ∀ P Q : Finset String, P ⊆ membership.voters → membership.majority ≤ P.card →
        Q ⊆ proposed → (membership.changeTo proposed).2.majority ≤ Q.card → (P ∩ Q).Nonempty := by
  obtain ⟨answer, haccepted⟩ := haccepted
  obtain ⟨hvoters, hdiff⟩ := Membership.changeTo_of_ok haccepted
  refine ⟨hvoters, fun P Q hP hPcard hQ hQcard => ?_⟩
  rw [Membership.majority, hvoters] at hQcard
  exact IsQuorum.inter_nonempty hdiff ⟨hP, hPcard⟩ ⟨hQ, hQcard⟩

/-- Three voters. -/
def threeVoters : Membership := ⟨{"n1", "n2", "n3"}, by decide⟩

/-- A fourth voter joins: any two of the old voters share a node with any three of the new ones. -/
theorem quorums_meet_changeTo_fourth :
    (∃ answer, (threeVoters.changeTo {"n1", "n2", "n3", "n4"}).1 = .ok answer) ∧
      ∀ P Q : Finset String, P ⊆ threeVoters.voters → 2 ≤ P.card →
        Q ⊆ {"n1", "n2", "n3", "n4"} → 3 ≤ Q.card → (P ∩ Q).Nonempty := by
  have haccepted : ∃ answer,
      (threeVoters.changeTo {"n1", "n2", "n3", "n4"}).1 = .ok answer := ⟨_, rfl⟩
  exact ⟨haccepted, (quorums_meet_changeTo threeVoters _ haccepted).2⟩

end Relay
