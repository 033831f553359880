import Relay.LogMatching

/-!
# Delivery of append requests

One leader with a fixed log sends slices of it to its followers. The network may delay a request,
deliver it twice or reorder it. An entry that a follower has acknowledged, by accepting a request
that carries it, should then stay in the follower's log.

It stays exactly as long as no accepted request ends before an acknowledged entry: `append` drops
everything after `prev_index`, also where the tail agrees with the leader's log and the request
only is an old one.

## Scope

The follower's report on how far it is behind the leader is left out.

## Main definitions

* `IsSlice`: the request carries a piece of the leader's log without gaps
* `acknowledged`: the entries that a follower has accepted along a trace
* `ReachesAcknowledged`: the request is refused, or ends no earlier than what was acknowledged

## Main results

* `acknowledged_iff`: acknowledged entries are in the log in every state reached if and only if
  every request reaches them
-/

namespace Relay

section Delivery

variable {φ : Type*} [DecidableEq φ]

/-- The batch holds the leader's entries right after `prev_index`, one for each index without gaps,
together with the leader's term at `prev_index`. -/
structure IsSlice (leader : Dict ℤ ℤ) (call : AppendCall φ) : Prop where
  range : ∀ index, (call.new.get? index).isSome = true ↔
    call.prevIndex < index ∧ index ≤ call.prevIndex + call.new.entries.length
  entry : ∀ index term, call.new.get? index = some term → leader.get? index = some term
  prev : call.prevIndex > 0 → leader.get? call.prevIndex = some call.prevTerm

/-- The check at `prev_index` that `append` begins with. -/
def Refuses (log : FollowerLog) (call : AppendCall φ) : Prop :=
  call.prevIndex > 0 ∧ log.entries.get? call.prevIndex ≠ some call.prevTerm

instance (log : FollowerLog) (call : AppendCall φ) : Decidable (Refuses log call) :=
  inferInstanceAs (Decidable (_ ∧ _))

/-- The entries of the batch, if the follower has taken it. -/
def acknowledges (follower : φ) (event : AppendCall φ × Except RelayError String) :
    List (ℤ × ℤ) :=
  match event.2 with
  | .ok _ => if event.1.follower = follower then event.1.new.entries else []
  | .error _ => []

/-- All entries that the follower has taken along a trace. -/
def acknowledged (events : List (AppendCall φ × Except RelayError String)) (follower : φ) :
    List (ℤ × ℤ) :=
  events.flatMap (acknowledges follower)

/-- Every acknowledged entry is in the log of the follower that acknowledged it. -/
def HoldsAcknowledged (logs : φ → FollowerLog) (past : List (AppendCall φ)) : Prop :=
  ∀ follower, ∀ e ∈ acknowledged (followersMachine.trace logs past) follower,
    (followersMachine.final logs past follower).entries.get? e.1 = some e.2

/-- The request is refused, or it ends no earlier than any entry its follower has acknowledged. -/
def ReachesAcknowledged (logs : φ → FollowerLog) (past : List (AppendCall φ))
    (call : AppendCall φ) : Prop :=
  Refuses (followersMachine.final logs past call.follower) call ∨
    ∀ e ∈ acknowledged (followersMachine.trace logs past) call.follower,
      e.1 ≤ call.prevIndex + call.new.entries.length

theorem acknowledged_append_singleton (logs : φ → FollowerLog) (past : List (AppendCall φ))
    (call : AppendCall φ) (follower : φ) :
    acknowledged (followersMachine.trace logs (past ++ [call])) follower =
      acknowledged (followersMachine.trace logs past) follower ++
        acknowledges follower
          (call, (followersMachine.step (followersMachine.final logs past) call).1) :=
  followersMachine.flatMap_trace_append_singleton _ logs past call

/-- A refused request changes nothing and acknowledges nothing. -/
theorem step_of_refuses {logs : φ → FollowerLog} {call : AppendCall φ}
    (h : Refuses (logs call.follower) call) :
    (followersMachine.step logs call).2 = logs ∧
      ∀ follower, acknowledges follower (call, (followersMachine.step logs call).1) = [] := by
  obtain ⟨error, hstep⟩ := step_of_refused h
  rw [hstep]
  exact ⟨rfl, fun _ => rfl⟩

/-- An accepted request is acknowledged by its follower, and by no other. -/
theorem acknowledges_of_not_refuses {logs : φ → FollowerLog} {call : AppendCall φ}
    (h : ¬ Refuses (logs call.follower) call) (follower : φ) :
    acknowledges follower (call, (followersMachine.step logs call).1) =
      if call.follower = follower then call.new.entries else [] := by
  obtain ⟨⟨answer, hanswer⟩, -⟩ := step_of_accepted h
  rw [hanswer]
  rfl

section Slices

variable {leader : Dict ℤ ℤ} {logs : φ → FollowerLog} {past : List (AppendCall φ)}
  {call : AppendCall φ}

/-- What a follower acknowledges are entries of the leader's log. -/
theorem leader_of_mem_acknowledged (hslices : ∀ c ∈ past, IsSlice leader c) {follower : φ}
    {e : ℤ × ℤ} (he : e ∈ acknowledged (followersMachine.trace logs past) follower) :
    leader.get? e.1 = some e.2 := by
  induction past using List.reverseRecOn with
  | nil => simp [acknowledged] at he
  | append_singleton past call ih =>
    rw [acknowledged_append_singleton, List.mem_append] at he
    rcases he with he | he
    · exact ih (fun c hc => hslices c (List.mem_append_left _ hc)) he
    · have hcall := hslices call (by simp)
      by_cases hrefuses : Refuses (followersMachine.final logs past call.follower) call
      · rw [(step_of_refuses hrefuses).2] at he
        cases he
      · rw [acknowledges_of_not_refuses hrefuses] at he
        split at he
        · exact hcall.entry _ _ (call.new.mem_entries_iff.mp he)
        · cases he

omit [DecidableEq φ] in
/-- An entry of the leader that the follower holds survives an accepted slice exactly when the
slice does not end before it. -/
theorem get?_or_cut_eq_some_iff (hcall : IsSlice leader call) {log : ℤ → Option ℤ} {index term : ℤ}
    (hheld : log index = some term) (hleader : leader.get? index = some term) :
    (call.new.get? index).or (cut log call.prevIndex index) = some term ↔
      index ≤ call.prevIndex + call.new.entries.length := by
  rcases le_or_gt index call.prevIndex with hle | hgt
  · have hnone : call.new.get? index = none := by
      rw [← Option.not_isSome_iff_eq_none, hcall.range]
      omega
    rw [hnone, Option.none_or, cut_of_le hle, hheld]
    refine iff_of_true rfl ?_
    omega
  · rw [cut_of_lt hgt, Option.or_none]
    constructor
    · intro hnew
      have hsome : (call.new.get? index).isSome = true := by rw [hnew]; rfl
      exact ((hcall.range index).mp hsome).2
    · intro hle
      obtain ⟨t, ht⟩ := Option.isSome_iff_exists.mp ((hcall.range index).mpr ⟨hgt, hle⟩)
      rw [ht, ← hleader, hcall.entry index t ht]

/-- One more request keeps what was acknowledged exactly when it reaches it. -/
theorem reachesAcknowledged_iff (hslices : ∀ c ∈ past ++ [call], IsSlice leader c)
    (hholds : HoldsAcknowledged logs past) :
    ReachesAcknowledged logs past call ↔ HoldsAcknowledged logs (past ++ [call]) := by
  have hcall := hslices call (by simp)
  have hleader : ∀ follower, ∀ e ∈ acknowledged (followersMachine.trace logs past) follower,
      leader.get? e.1 = some e.2 := fun follower e =>
    leader_of_mem_acknowledged fun c hc => hslices c (List.mem_append_left _ hc)
  rw [ReachesAcknowledged, HoldsAcknowledged, Machine.final_append_singleton]
  by_cases hrefuses : Refuses (followersMachine.final logs past call.follower) call
  · obtain ⟨hsame, hnothing⟩ := step_of_refuses hrefuses
    refine iff_of_true (Or.inl hrefuses) fun follower e he => ?_
    rw [acknowledged_append_singleton, hnothing, List.append_nil] at he
    rw [hsame]
    exact hholds follower e he
  · obtain ⟨-, hget⟩ := step_of_accepted hrefuses
    rw [or_iff_right hrefuses]
    constructor
    · intro hreaches follower e he
      rw [acknowledged_append_singleton, acknowledges_of_not_refuses hrefuses,
        List.mem_append] at he
      rw [hget follower]
      by_cases hfollower : call.follower = follower
      · subst hfollower
        simp only [if_true] at he ⊢
        rcases he with he | he
        · exact (get?_or_cut_eq_some_iff hcall (hholds _ e he) (hleader _ e he)).mpr
            (hreaches e he)
        · rw [call.new.mem_entries_iff.mp he, Option.some_or]
      · rw [if_neg hfollower] at he ⊢
        exact hholds follower e (he.resolve_right List.not_mem_nil)
    · intro hkept e he
      have hafter := hkept call.follower e (by
        rw [acknowledged_append_singleton]
        exact List.mem_append_left _ he)
      rw [hget call.follower, if_pos rfl] at hafter
      exact (get?_or_cut_eq_some_iff hcall (hholds _ e he) (hleader _ e he)).mp hafter

end Slices

/-- **Acknowledged entries.** Let followers with any logs receive slices of one leader's log, in any
order, with any of them delayed or repeated. Every follower holds, in every state along the way,
all that it has acknowledged, if and only if no request is accepted that ends before an entry its
follower has acknowledged. -/
theorem acknowledged_iff (leader : Dict ℤ ℤ) (logs : φ → FollowerLog)
    (calls : List (AppendCall φ)) (hslices : ∀ call ∈ calls, IsSlice leader call) :
    (∀ past, past <+: calls → HoldsAcknowledged logs past) ↔
      Justified (ReachesAcknowledged logs) calls := by
  refine (justified_iff_forall_past ?_ fun past call hpast hholds => ?_).symm
  · intro follower e he
    simp [acknowledged] at he
  · exact reachesAcknowledged_iff (fun c hc => hslices c (hpast.subset hc)) hholds

end Delivery

/-- A leader with two entries of one term. -/
def oneLeader : Dict ℤ ℤ := ⟨[(1, 4), (2, 4)], by decide⟩

/-- The leader's first entry, and then its whole log. -/
def growingSlices : List (AppendCall Unit) :=
  [⟨(), 0, 0, ⟨[(1, 4)], by decide⟩⟩, ⟨(), 0, 0, oneLeader⟩]

/-- The first of the two requests arrives once more at the end. -/
def repeatedSlices : List (AppendCall Unit) :=
  growingSlices ++ [⟨(), 0, 0, ⟨[(1, 4)], by decide⟩⟩]

theorem isSlice_repeatedSlices : ∀ call ∈ repeatedSlices, IsSlice oneLeader call := by
  intro call hcall
  simp only [repeatedSlices, growingSlices, List.cons_append, List.nil_append, List.mem_cons,
    List.not_mem_nil, or_false] at hcall
  rcases hcall with rfl | rfl | rfl
  all_goals
    refine ⟨fun index => ?_, fun index term => ?_, fun h => absurd h (by decide)⟩
    all_goals
      simp only [oneLeader, Dict.get?, Dict.lookup_cons_ite, List.lookup_nil, List.length_cons,
        List.length_nil]
      grind

/-- The old request takes away the second entry, which the follower has acknowledged. -/
theorem acknowledged_lost_repeatedSlices :
    (∀ call ∈ repeatedSlices, IsSlice oneLeader call) ∧
      ¬ ∀ past, past <+: repeatedSlices → HoldsAcknowledged (fun _ => {}) past := by
  refine ⟨isSlice_repeatedSlices, fun hholds => ?_⟩
  have hheld := hholds repeatedSlices List.prefix_rfl () (2, 4) (by decide)
  have hlost : (followersMachine.final (fun _ => {}) repeatedSlices ()).entries.get? 2 = none := by
    decide
  rw [hlost] at hheld
  cases hheld

/-- Delivered in order, both requests reach what was acknowledged, and both entries stay. -/
theorem acknowledged_iff_growingSlices :
    Justified (ReachesAcknowledged fun _ => {}) growingSlices ∧
      ∀ past, past <+: growingSlices → HoldsAcknowledged (fun _ => {}) past := by
  have hslices : ∀ call ∈ growingSlices, IsSlice oneLeader call := fun call hcall =>
    isSlice_repeatedSlices call (List.mem_append_left _ hcall)
  have hreaches : Justified (ReachesAcknowledged fun _ => {}) growingSlices := by
    rw [growingSlices, ← List.singleton_append, justified_append_singleton, ← List.nil_append [_],
      justified_append_singleton]
    exact ⟨⟨justified_nil _, Or.inr (by decide)⟩, Or.inr (by decide)⟩
  exact ⟨hreaches, (acknowledged_iff oneLeader _ growingSlices hslices).mpr hreaches⟩

end Relay
