import Relay.LeaderEpochCache

/-!
# The epoch handshake of a fetch

Before it fetches, a follower asks the leader where the follower's latest epoch ended on the
leader's log, and truncates what it holds past that point.

One round is not enough to make the follower's log a prefix of the leader's. The answer bounds
the follower's log by the leader's first epoch newer than the follower's latest, and says nothing
about the epochs before: an epoch the leader never had, or one the follower never saw, survives
below that bound. `handshake_agrees_iff` is the exact condition: no such epoch was there before.

## Main definitions

* `truncationPoint`, `DivergenceGuard`
* `Remains`: what is left of the follower's log, in terms of the two histories
* `NoStrayEpoch`: no epoch among what remains is known to one log only

## Main results

* `handshake_agrees_iff`: when one round leaves a prefix of the leader's log
* `DivergenceGuard.resolve_truncationPoint`: the guard accepts the truncation point
-/

namespace Relay

open Timeline

/-- `truncation_point`: where the follower has to cut its log, and why. -/
def truncationPoint (followerEpoch followerEnd leaderEpochEnd : ℤ) : ℤ × String :=
  if followerEnd ≤ leaderEpochEnd then
    (followerEnd, "no truncation: the follower's log is already a prefix "
      ++ "of the leader's, nothing diverged")
  else
    (leaderEpochEnd, s!"truncate {followerEnd - leaderEpochEnd} record(s) to offset "
      ++ s!"{leaderEpochEnd}: divergent history from epoch "
      ++ s!"{followerEpoch}, never committed so nothing promised is "
      ++ "lost, but a large truncation means the old leader was "
      ++ "lagging before it failed")

theorem lt_truncationPoint_iff (followerEpoch followerEnd leaderEpochEnd o : ℤ) :
    o < (truncationPoint followerEpoch followerEnd leaderEpochEnd).1 ↔
      o < followerEnd ∧ o < leaderEpochEnd := by
  rw [truncationPoint]
  split
  · next h => exact ⟨fun ho => ⟨ho, ho.trans_le h⟩, fun ho => ho.1⟩
  · next h => exact ⟨fun ho => ⟨ho.trans (not_le.mp h), ho⟩, fun ho => ho.2⟩

/-- Remembers how far a follower's log has diverged. -/
structure DivergenceGuard where
  divergedPast : Option ℤ := none
  deriving DecidableEq

namespace DivergenceGuard

/-- `require_truncation`: the divergence is noted before the append is refused. -/
def requireTruncation (guard : DivergenceGuard) (followerEnd leaderEpochEnd : ℤ) :
    Except RelayError Unit × DivergenceGuard :=
  if followerEnd > leaderEpochEnd then
    (.error (.invalid ("cannot append while the log diverges past "
      ++ s!"{leaderEpochEnd}; appending onto a divergent "
      ++ "log is the exact corruption the epoch check "
      ++ "prevents, truncate first")), { divergedPast := some leaderEpochEnd })
  else (.ok (), guard)

/-- `resolve`. -/
def resolve (guard : DivergenceGuard) (truncatedTo : ℤ) :
    Except RelayError String × DivergenceGuard :=
  match guard.divergedPast with
  | none => (.ok "no divergence to resolve", guard)
  | some divergedPast =>
    if truncatedTo ≠ divergedPast then
      (.error (.invalid (s!"truncated to {truncatedTo} but divergence is "
        ++ s!"at {divergedPast}; the log is still not a prefix")), guard)
    else
      (.ok ("divergence resolved: the log is now a strict prefix "
        ++ "of the leader's and may append again"), { divergedPast := none })

/-- A follower the guard has stopped may append again once it has cut its log at the truncation
point of the same handshake. -/
theorem resolve_truncationPoint (guard : DivergenceGuard) {followerEnd leaderEpochEnd : ℤ}
    {e : RelayError} (hstop : (guard.requireTruncation followerEnd leaderEpochEnd).1 = .error e)
    (followerEpoch : ℤ) :
    ((guard.requireTruncation followerEnd leaderEpochEnd).2.resolve
      (truncationPoint followerEpoch followerEnd leaderEpochEnd).1).2 = {} := by
  rw [requireTruncation] at hstop ⊢
  split at hstop
  · next hgt => simp [hgt, resolve, truncationPoint, not_le.mpr hgt]
  · cases hstop

end DivergenceGuard

/-! ## One round of the handshake -/

/-- An offset that is on the follower's log after it asked about an epoch: below the follower's
end, below the start of every leader epoch newer than the one asked about, and below the leader's
log end when there is none newer. -/
def Remains (cache : LeaderEpochCache) (asked followerEnd : ℤ) (o : ℤ) : Prop :=
  o < followerEnd ∧ (∀ n ∈ cache.entries, asked < n.1 → o < n.2) ∧
    ((∀ n ∈ cache.entries, n.1 ≤ asked) → o < cache.logEnd)

/-- No epoch with records among what remains is known to one log only, or begins at different
offsets on the two. -/
structure NoStrayEpoch (cache : LeaderEpochCache) (follower : List (ℤ × ℤ))
    (asked followerEnd : ℤ) : Prop where
  /-- Every such epoch of the follower stands in the leader's cache. -/
  on_leader : ∀ m, Begins follower m → Remains cache asked followerEnd m.2 → m ∈ cache.entries
  /-- Every such epoch of the leader stands in the follower's history. -/
  on_follower : ∀ m, Begins cache.entries m → Remains cache asked followerEnd m.2 → m ∈ follower

/-- **When one round leaves a prefix.** Whatever epoch the follower asks about, its latest in
particular: if the leader answers, every offset that remains lies in the same epoch on both logs
exactly when no stray epoch was there before. -/
theorem handshake_agrees_iff (cache : LeaderEpochCache) (follower : List (ℤ × ℤ))
    (asked followerEnd leaderEpochEnd : ℤ) (hcache : Ordered cache.entries)
    (hfollower : Ordered follower) (hend : cache.endOffsetFor asked = .ok leaderEpochEnd) :
    (∀ o, o < (truncationPoint asked followerEnd leaderEpochEnd).1 →
        labelAt follower o = labelAt cache.entries o) ↔
      NoStrayEpoch cache follower asked followerEnd := by
  have hremains : ∀ o, o < (truncationPoint asked followerEnd leaderEpochEnd).1 ↔
      Remains cache asked followerEnd o := by
    intro o
    rw [lt_truncationPoint_iff, cache.lt_endOffsetFor_iff hcache hend, Remains]
  have hdown : ∀ a b : ℤ, a ≤ b → Remains cache asked followerEnd b →
      Remains cache asked followerEnd a := by
    rintro a b hab ⟨hf, hl, he⟩
    exact ⟨hab.trans_lt hf, fun n hn hgt => hab.trans_lt (hl n hn hgt),
      fun hall => hab.trans_lt (he hall)⟩
  simp only [hremains]
  rw [labelAt_eq_iff_mem hfollower hcache hdown]
  exact ⟨fun ⟨hl, hf⟩ => ⟨hl, hf⟩, fun h => ⟨h.on_leader, h.on_follower⟩⟩

/-- The leader had epochs `0` and `2`, the follower `0` and, from offset `40`, its latest epoch
`1`. The leader answers with the start of epoch `2`, and the follower keeps thirty records of an
epoch the leader never had. -/
theorem handshake_keeps_stray_epoch :
    Ordered (⟨100, [(0, 0), (2, 70)]⟩ : LeaderEpochCache).entries ∧
      Ordered ([(0, 0), (1, 40)] : List (ℤ × ℤ)) ∧
      ([(0, 0), (1, 40)] : List (ℤ × ℤ)).getLast? = some (1, 40) ∧
      (⟨100, [(0, 0), (2, 70)]⟩ : LeaderEpochCache).endOffsetFor 1 = .ok 70 ∧
      ¬ ∀ o, o < (truncationPoint 1 90 70).1 →
        labelAt ([(0, 0), (1, 40)] : List (ℤ × ℤ)) o = labelAt [(0, 0), (2, 70)] o := by
  refine ⟨by decide, by decide, by decide, by decide, fun hagree => ?_⟩
  exact absurd (hagree 50 (by decide)) (by decide)

/-- A follower whose latest epoch the leader had, from the same offset: what it wrote past the
leader's end of that epoch is cut, and a prefix remains. -/
theorem handshake_agrees_iff_prefix :
    NoStrayEpoch ⟨100, [(0, 0), (1, 40), (2, 70)]⟩ [(0, 0), (1, 40)] 1 90 ∧
      ∀ o, o < (truncationPoint 1 90 70).1 →
        labelAt ([(0, 0), (1, 40)] : List (ℤ × ℤ)) o = labelAt [(0, 0), (1, 40), (2, 70)] o := by
  have hshared : NoStrayEpoch ⟨100, [(0, 0), (1, 40), (2, 70)]⟩ [(0, 0), (1, 40)] 1 90 := by
    constructor
    · intro m hb _
      exact List.mem_append_left [(2, 70)] hb.1
    · rintro m ⟨hm, -⟩ ⟨-, hnewer, -⟩
      have hlt := hnewer (2, 70) (by simp) (by decide)
      simp only [List.mem_cons, List.not_mem_nil, or_false] at hm ⊢
      rcases hm with rfl | rfl | rfl
      · exact Or.inl rfl
      · exact Or.inr rfl
      · exact absurd hlt (by decide)
  exact ⟨hshared, (handshake_agrees_iff ⟨100, [(0, 0), (1, 40), (2, 70)]⟩ [(0, 0), (1, 40)] 1 90 70
    (by decide) (by decide) (by decide)).mpr hshared⟩

end Relay
