import Mathlib.Algebra.Order.Ring.Int
import Mathlib.Data.Finset.Lattice.Fold
import Mathlib.Data.Finset.Sort
import Relay.Errors
import Relay.Lib.Dict
import Relay.Lib.Machine

/-!
# Cooperative rebalancing

A group moves from the partitions its members hold to those they should hold in two rounds. In the
first, every member gives up what it does not keep. In the second, the members of the target are
gone through in order, and each is given what it should hold, unless that takes a partition that
somebody owns; then the round stops with an error, and what it has assigned so far stays assigned.

A partition that was given up in the first round is free, so the second does not look whether
somebody owns it. That is right the first time it is assigned, and not the second: a target that
wants a free partition for two members gives it to both. The check stands in the way only by chance,
when another partition stops the round before the second of them is reached. The condition on the
target is exact (`SharesNoFreed`).

## Main definitions

* `CooperativeRebalance`, with `revokePhase`, `assignPhase` and `neverDoubleOwned`
* `Freed`, `Stops`: the partitions that are given up, and the members at which the second round
  stops, in terms of what is held before and of the target

## Main results

* `neverDoubleOwned_iff_sharesNoFreed`: from disjoint holdings, no partition is owned twice in any
  state, exactly when the target does not want a free partition for two members it reaches
* `revokePhase_assignPhase_of_heldOnce`: from disjoint holdings and towards disjoint sets, the two
  rounds reach the target, and only what moves is given up
-/

namespace Relay

/-- Where a rebalance stands. -/
inductive RebalancePhase where
  | start
  | revoked
  | done
  deriving DecidableEq

/-- A rebalance. -/
structure CooperativeRebalance where
  current : Dict String (Finset ℤ)
  target : Dict String (Finset ℤ)
  revoked : Dict String (Finset ℤ) := ∅
  phase : RebalancePhase := .start

/-- `_owned_now`: the union of the sets of a map. `assign_phase` collects the freed partitions in
the same way. -/
def ownedNow (sets : Dict String (Finset ℤ)) : Finset ℤ :=
  sets.values.foldl (· ∪ ·) ∅

namespace CooperativeRebalance

/-- `to_revoke`. -/
def toRevoke (rebalance : CooperativeRebalance) : Dict String (Finset ℤ) :=
  (rebalance.current.mapValues fun member held => held \ rebalance.target.getD member ∅).filter
    fun _ losing => losing ≠ ∅

/-- `revoke_phase`. -/
def revokePhase (rebalance : CooperativeRebalance) :
    Except RelayError String × CooperativeRebalance :=
  if rebalance.phase ≠ .start then
    (.error (.invalid "revoke happens once, at the start of a round"), rebalance)
  else
    let revoked := rebalance.toRevoke
    let moved := (revoked.values.map Finset.card).sum
    (.ok s!"revoked {moved} partition(s); the ones staying put never paused", { rebalance with
      current := rebalance.current.mergeWith (· \ ·) ∅ revoked
      revoked := revoked
      phase := .revoked })

/-- The loop of `assign_phase`. The partitions that a member gains are gone through in increasing
order; in the source the order is that of a set, and it only decides which of them the error names.
-/
def assignLoop (freed : Finset ℤ) (current : Dict String (Finset ℤ)) :
    List (String × Finset ℤ) → Except RelayError Unit × Dict String (Finset ℤ)
  | [] => (.ok (), current)
  | (member, wanted) :: rest =>
    let gaining := wanted \ current.getD member ∅
    match (gaining.sort (· ≤ ·)).find? fun part => part ∉ freed ∧ part ∈ ownedNow current with
    | some part =>
      (.error (.invalid (s!"partition {part} would be owned twice; "
        ++ "the protocol pauses before it duplicates")), current)
    | none => assignLoop freed (current.set member wanted) rest

/-- `assign_phase`. -/
def assignPhase (rebalance : CooperativeRebalance) :
    Except RelayError String × CooperativeRebalance :=
  if rebalance.phase ≠ .revoked then
    (.error (.invalid "assign follows revoke, not precedes it"), rebalance)
  else
    match assignLoop (ownedNow rebalance.revoked) rebalance.current rebalance.target.entries with
    | (.error e, current) => (.error e, { rebalance with current := current })
    | (.ok _, current) =>
      (.ok "assigned; no partition was ever owned by two",
        { rebalance with current := current, phase := .done })

/-- The loop of `never_double_owned`. -/
def neverDoubleOwnedLoop (seen : Finset ℤ) : List (Finset ℤ) → Bool
  | [] => true
  | held :: rest =>
    if (held ∩ seen).Nonempty then false else neverDoubleOwnedLoop (seen ∪ held) rest

/-- `never_double_owned`. -/
def neverDoubleOwned (rebalance : CooperativeRebalance) : Bool :=
  neverDoubleOwnedLoop ∅ rebalance.current.values

end CooperativeRebalance

/-- A call to the rebalance. -/
inductive RebalanceCall where
  | revokePhase
  | assignPhase

/-- The rebalance as a component. -/
def cooperativeRebalance :
    Machine CooperativeRebalance RebalanceCall (Except RelayError String) where
  step rebalance
    | .revokePhase => rebalance.revokePhase
    | .assignPhase => rebalance.assignPhase

/-! ## What is held -/

theorem mem_getD_iff {sets : Dict String (Finset ℤ)} {m : String} {p : ℤ} :
    p ∈ sets.getD m ∅ ↔ ∃ held, sets.get? m = some held ∧ p ∈ held := by
  rw [Dict.getD]
  cases sets.get? m <;> simp

theorem mem_ownedNow {sets : Dict String (Finset ℤ)} {p : ℤ} :
    p ∈ ownedNow sets ↔ ∃ m, p ∈ sets.getD m ∅ := by
  have hfold : ∀ (values : List (Finset ℤ)) (seen : Finset ℤ),
      p ∈ values.foldl (· ∪ ·) seen ↔ p ∈ seen ∨ ∃ held ∈ values, p ∈ held := by
    intro values
    induction values with
    | nil => simp
    | cons held values ih =>
      intro seen
      simp [ih, or_assoc]
  rw [ownedNow, hfold]
  simp only [Finset.notMem_empty, false_or, Dict.mem_values_iff, mem_getD_iff]
  constructor
  · rintro ⟨held, ⟨m, hm⟩, hp⟩
    exact ⟨m, held, hm, hp⟩
  · rintro ⟨m, held, hm, hp⟩
    exact ⟨held, ⟨m, hm⟩, hp⟩

/-- No partition is held by two members. -/
def HeldOnce (sets : Dict String (Finset ℤ)) : Prop :=
  ∀ m m' p, p ∈ sets.getD m ∅ → p ∈ sets.getD m' ∅ → m = m'

theorem neverDoubleOwnedLoop_iff {seen : Finset ℤ} {values : List (Finset ℤ)} :
    CooperativeRebalance.neverDoubleOwnedLoop seen values = true ↔
      values.Pairwise Disjoint ∧ ∀ held ∈ values, Disjoint held seen := by
  induction values generalizing seen with
  | nil => simp [CooperativeRebalance.neverDoubleOwnedLoop]
  | cons held values ih =>
    rw [CooperativeRebalance.neverDoubleOwnedLoop, List.pairwise_cons, List.forall_mem_cons]
    split
    · next hshared =>
      exact iff_of_false Bool.false_ne_true fun h =>
        Finset.not_disjoint_iff_nonempty_inter.mpr hshared h.2.1
    · next hdisjoint =>
      rw [← Finset.not_disjoint_iff_nonempty_inter] at hdisjoint
      rw [ih]
      simp only [Finset.disjoint_union_right]
      constructor
      · rintro ⟨hpairwise, hvalues⟩
        exact ⟨⟨fun held' h' => (hvalues held' h').2.symm, hpairwise⟩, not_not.mp hdisjoint,
          fun held' h' => (hvalues held' h').1⟩
      · rintro ⟨⟨hheld, hpairwise⟩, -, hvalues⟩
        exact ⟨hpairwise, fun held' h' => ⟨hvalues held' h', (hheld held' h').symm⟩⟩

theorem CooperativeRebalance.neverDoubleOwned_iff {rebalance : CooperativeRebalance} :
    rebalance.neverDoubleOwned = true ↔ HeldOnce rebalance.current := by
  have : Std.Symm (@Disjoint (Finset ℤ) _ _) := ⟨fun _ _ h => h.symm⟩
  rw [neverDoubleOwned, neverDoubleOwnedLoop_iff, Dict.pairwise_values_iff]
  constructor
  · rintro ⟨h, -⟩ m m' p hp hp'
    obtain ⟨held, hm, hp⟩ := mem_getD_iff.mp hp
    obtain ⟨held', hm', hp'⟩ := mem_getD_iff.mp hp'
    by_contra hne
    exact Finset.disjoint_left.mp (h m m' held held' hne hm hm') hp hp'
  · intro h
    refine ⟨fun m m' held held' hne hm hm' => ?_, fun held _ => Finset.disjoint_empty_right held⟩
    refine Finset.disjoint_left.mpr fun p hp hp' => hne ?_
    exact h m m' p (mem_getD_iff.mpr ⟨held, hm, hp⟩) (mem_getD_iff.mpr ⟨held', hm', hp'⟩)

theorem getD_toRevoke (rebalance : CooperativeRebalance) (m : String) :
    rebalance.toRevoke.getD m ∅ =
      rebalance.current.getD m ∅ \ rebalance.target.getD m ∅ := by
  show (rebalance.toRevoke.get? m).getD ∅ =
    (rebalance.current.get? m).getD ∅ \ rebalance.target.getD m ∅
  rw [CooperativeRebalance.toRevoke, Dict.get?_filter, Dict.get?_mapValues]
  cases rebalance.current.get? m with
  | none => exact (Finset.empty_sdiff _).symm
  | some held =>
    by_cases hlosing : held \ rebalance.target.getD m ∅ = ∅ <;> simp [hlosing, Option.filter]

/-! ## The condition on the target -/

section Target

variable (current target : Dict String (Finset ℤ))

/-- The partition is given up in the first round. -/
def Freed (p : ℤ) : Prop := ∃ m, p ∈ current.getD m ∅ ∧ p ∉ target.getD m ∅

/-- The second round stops at the entry: it wants a partition that nobody gives up, that the member
does not hold, and that somebody holds or an earlier entry wants. -/
def Stops (before : List (String × Finset ℤ)) (entry : String × Finset ℤ) : Prop :=
  ∃ p ∈ entry.2, ¬ Freed current target p ∧ p ∉ current.getD entry.1 ∅ ∧
    ((∃ m, p ∈ current.getD m ∅) ∨ ∃ earlier ∈ before, p ∈ earlier.2)

/-- The second round gets to the end of these entries of the target. -/
def Reaches (reached : List (String × Finset ℤ)) : Prop :=
  reached <+: target.entries ∧ Justified (fun before e => ¬ Stops current target before e) reached

/-- As far as the second round gets, no partition that is given up is wanted twice. -/
def SharesNoFreed : Prop :=
  ∀ reached, Reaches current target reached →
    reached.Pairwise fun e e' => ∀ p ∈ e.2, Freed current target p → p ∉ e'.2

/-- Who holds what when the second round has got to the end of the entries: their members hold what
they want, and the others what they kept. -/
def Assigned (reached : List (String × Finset ℤ)) (held : Dict String (Finset ℤ)) : Prop :=
  ∀ m p, p ∈ held.getD m ∅ ↔ (∃ e ∈ reached, e.1 = m ∧ p ∈ e.2) ∨
    (∀ e ∈ reached, e.1 ≠ m) ∧ p ∈ current.getD m ∅ ∧ p ∈ target.getD m ∅

end Target

section Rounds

variable {current target held : Dict String (Finset ℤ)} {reached : List (String × Finset ℤ)}

theorem mem_iff_of_mem_entries {e : String × Finset ℤ} (he : e ∈ target.entries) {p : ℤ} :
    p ∈ target.getD e.1 ∅ ↔ p ∈ e.2 := by
  rw [Dict.getD, target.mem_entries_iff.mp he]
  rfl

theorem isPrefix_append_cons (before : List (String × Finset ℤ)) (e : String × Finset ℤ)
    (rest : List (String × Finset ℤ)) : before ++ [e] <+: before ++ e :: rest := by
  rw [List.append_cons before e rest]
  exact List.prefix_append _ _

/-- Entries before another are for other members. -/
theorem ne_of_isPrefix {before : List (String × Finset ℤ)} {e : String × Finset ℤ}
    (h : before ++ [e] <+: target.entries) : ∀ e' ∈ before, e'.1 ≠ e.1 := by
  have hnodup : ((before ++ [e]).map Prod.fst).Nodup := target.nodup.sublist (h.sublist.map _)
  rw [List.map_append, List.nodup_append] at hnodup
  intro e' he'
  exact hnodup.2.2 e'.1 (List.mem_map_of_mem he') e.1 (List.mem_singleton_self _)

/-- What a member holds and keeps is not given up. -/
theorem not_freed_of_kept (hcurrent : HeldOnce current) {m : String} {p : ℤ}
    (hheld : p ∈ current.getD m ∅) (hwanted : p ∈ target.getD m ∅) : ¬ Freed current target p := by
  rintro ⟨m', hheld', hlost⟩
  rw [hcurrent m' m p hheld' hheld] at hlost
  exact hlost hwanted

/-- As far as the second round gets, no entry wants what another member keeps. -/
theorem Reaches.eq_of_kept (hcurrent : HeldOnce current) (h : Reaches current target reached)
    {e : String × Finset ℤ} (he : e ∈ reached) {m : String} {p : ℤ} (hp : p ∈ e.2)
    (hheld : p ∈ current.getD m ∅) (hwanted : p ∈ target.getD m ∅) : e.1 = m := by
  by_contra hne
  obtain ⟨before, after, hsplit⟩ := List.append_of_mem he
  refine h.2 before e after hsplit ⟨p, hp, not_freed_of_kept hcurrent hheld hwanted, ?_, ?_⟩
  · exact fun hown => hne (hcurrent e.1 m p hown hheld)
  · exact Or.inl ⟨m, hheld⟩

/-- As far as the second round gets, what two entries want was given up. -/
theorem Reaches.freed_of_shared (hcurrent : HeldOnce current) (h : Reaches current target reached) :
    reached.Pairwise fun e e' => ∀ p ∈ e.2, p ∈ e'.2 → Freed current target p := by
  rw [← justified_iff_pairwise]
  intro before e' after hsplit e he p hp hp'
  by_contra hfreed
  have he' : e' ∈ reached := hsplit ▸ List.mem_append_right _ List.mem_cons_self
  have hne : e.1 ≠ e'.1 := by
    refine ne_of_isPrefix (List.IsPrefix.trans ?_ h.1) e he
    rw [hsplit]
    exact isPrefix_append_cons before e' after
  -- the later entry would stop the round, unless its member holds the partition already
  by_cases hheld : p ∈ current.getD e'.1 ∅
  · refine hne (h.eq_of_kept hcurrent (hsplit ▸ List.mem_append_left _ he) hp hheld ?_)
    exact (mem_iff_of_mem_entries (h.1.subset he')).mpr hp'
  · exact h.2 before e' after hsplit ⟨p, hp', hfreed, hheld, Or.inr ⟨e, he, hp⟩⟩

/-- **When holdings are disjoint.** As far as the second round gets, a partition is held twice
exactly when it was given up and is wanted twice: the check of the round keeps all others apart. -/
theorem Assigned.heldOnce_iff (hcurrent : HeldOnce current)
    (hreached : Reaches current target reached) (h : Assigned current target reached held) :
    HeldOnce held ↔ reached.Pairwise fun e e' => ∀ p ∈ e.2, Freed current target p → p ∉ e'.2 := by
  have hkeys : (reached.map Prod.fst).Nodup := target.nodup.sublist (hreached.1.sublist.map _)
  constructor
  · intro honce
    refine (List.pairwise_map.mp hkeys).imp_of_mem fun {e e'} he he' hne p hp _ hp' => hne ?_
    exact honce e.1 e'.1 p ((h e.1 p).mpr (Or.inl ⟨e, he, rfl, hp⟩))
      ((h e'.1 p).mpr (Or.inl ⟨e', he', rfl, hp'⟩))
  · intro hfreed m m' p hp hp'
    rcases (h m p).mp hp with ⟨e, he, rfl, hin⟩ | ⟨-, hkept, hwanted⟩
    · rcases (h m' p).mp hp' with ⟨e', he', rfl, hin'⟩ | ⟨-, hkept', hwanted'⟩
      · -- two entries that want one partition are one entry
        have hdisjoint : reached.Pairwise fun e e' => ∀ p ∈ e.2, p ∉ e'.2 :=
          (hfreed.and (hreached.freed_of_shared hcurrent)).imp fun hand p hp hp' =>
            hand.1 p hp (hand.2 p hp hp') hp'
        have : Std.Symm fun e e' : String × Finset ℤ => ∀ p ∈ e.2, p ∉ e'.2 :=
          ⟨fun e e' hd p hp hp' => hd p hp' hp⟩
        by_contra hne
        exact hdisjoint.forall he he' (fun heq => hne (congrArg Prod.fst heq)) p hin hin'
      · exact hreached.eq_of_kept hcurrent he hin hkept' hwanted'
    · rcases (h m' p).mp hp' with ⟨e', he', rfl, hin'⟩ | ⟨-, hkept', -⟩
      · exact (hreached.eq_of_kept hcurrent he' hin' hkept hwanted).symm
      · exact hcurrent m m' p hkept hkept'

/-! ### The loop of the second round -/

variable {freed : Finset ℤ} {before rest : List (String × Finset ℤ)} {e : String × Finset ℤ}

/-- The check of the loop, in terms of what was held before and of the target. -/
theorem Assigned.stops_iff (h : Assigned current target before held)
    (hfreed : ∀ p, p ∈ freed ↔ Freed current target p)
    (hpre : before ++ [e] <+: target.entries) :
    (∃ part ∈ e.2 \ held.getD e.1 ∅, part ∉ freed ∧ part ∈ ownedNow held) ↔
      Stops current target before e := by
  have hne := ne_of_isPrefix hpre
  have hentry : e ∈ target.entries :=
    hpre.subset (List.mem_append_right _ (List.mem_singleton_self e))
  have hwanted : ∀ p ∈ e.2, p ∈ target.getD e.1 ∅ := fun p hp =>
    (mem_iff_of_mem_entries hentry).mpr hp
  -- the member has not been assigned yet, so it holds what it kept
  have hown : ∀ p ∈ e.2, (p ∈ held.getD e.1 ∅ ↔ p ∈ current.getD e.1 ∅) := by
    intro p hp
    rw [h]
    constructor
    · rintro (⟨e', he', heq, -⟩ | ⟨-, hheld, -⟩)
      · exact absurd heq (hne e' he')
      · exact hheld
    · exact fun hheld => Or.inr ⟨hne, hheld, hwanted p hp⟩
  -- a partition that is not given up is owned if somebody held it, or if it was assigned
  have howned : ∀ p, ¬ Freed current target p → (p ∈ ownedNow held ↔
      (∃ m, p ∈ current.getD m ∅) ∨ ∃ earlier ∈ before, p ∈ earlier.2) := by
    intro p hkept
    rw [mem_ownedNow]
    constructor
    · rintro ⟨m, hm⟩
      rcases (h m p).mp hm with ⟨e', he', -, hp⟩ | ⟨-, hheld, -⟩
      · exact Or.inr ⟨e', he', hp⟩
      · exact Or.inl ⟨m, hheld⟩
    · rintro (⟨m, hheld⟩ | ⟨e', he', hp⟩)
      · have htarget : p ∈ target.getD m ∅ := by
          by_contra hlost
          exact hkept ⟨m, hheld, hlost⟩
        refine ⟨m, (h m p).mpr ?_⟩
        by_cases hassigned : ∀ e' ∈ before, e'.1 ≠ m
        · exact Or.inr ⟨hassigned, hheld, htarget⟩
        · push Not at hassigned
          obtain ⟨e', he', rfl⟩ := hassigned
          have hmem : e' ∈ target.entries := hpre.subset (List.mem_append_left _ he')
          exact Or.inl ⟨e', he', rfl, (mem_iff_of_mem_entries hmem).mp htarget⟩
      · exact ⟨e'.1, (h e'.1 p).mpr (Or.inl ⟨e', he', rfl, hp⟩)⟩
  constructor
  · rintro ⟨p, hgaining, hnot, howns⟩
    obtain ⟨hp, hnone⟩ := Finset.mem_sdiff.mp hgaining
    have hkept : ¬ Freed current target p := fun hf => hnot ((hfreed p).mpr hf)
    exact ⟨p, hp, hkept, (hown p hp).not.mp hnone, (howned p hkept).mp howns⟩
  · rintro ⟨p, hp, hkept, hnone, howns⟩
    exact ⟨p, Finset.mem_sdiff.mpr ⟨hp, (hown p hp).not.mpr hnone⟩,
      fun hf => hkept ((hfreed p).mp hf), (howned p hkept).mpr howns⟩

theorem Assigned.set (h : Assigned current target before held)
    (hpre : before ++ [e] <+: target.entries) :
    Assigned current target (before ++ [e]) (held.set e.1 e.2) := by
  intro m p
  have hlast : e ∈ before ++ [e] := List.mem_append_right _ (List.mem_singleton_self e)
  rw [Dict.getD_set]
  split
  · next hm =>
    subst hm
    refine ⟨fun hp => Or.inl ⟨e, hlast, rfl, hp⟩, ?_⟩
    rintro (⟨e', he', heq, hp⟩ | ⟨hne, -⟩)
    · rcases List.mem_append.mp he' with he' | he'
      · exact absurd heq (ne_of_isPrefix hpre e' he')
      · rwa [List.mem_singleton.mp he'] at hp
    · exact absurd rfl (hne e hlast)
  · next hm =>
    rw [h m p]
    refine or_congr ⟨?_, ?_⟩ (and_congr_left' ⟨fun hne => ?_, fun hne e' he' => ?_⟩)
    · rintro ⟨e', he', heq, hp⟩
      exact ⟨e', List.mem_append_left _ he', heq, hp⟩
    · rintro ⟨e', he', heq, hp⟩
      rcases List.mem_append.mp he' with he' | he'
      · exact ⟨e', he', heq, hp⟩
      · rw [List.mem_singleton.mp he'] at heq
        exact absurd heq.symm hm
    · exact forall_mem_append_singleton.mpr ⟨hne, fun heq => hm heq.symm⟩
    · exact hne e' (List.mem_append_left _ he')

/-- **The second round.** It assigns the entries it reaches, and if it does not get to the end, the
next entry stops it. -/
theorem Assigned.assignLoop (hfreed : ∀ p, p ∈ freed ↔ Freed current target p)
    (h : Assigned current target before held) (hreaches : Reaches current target before)
    (hentries : before ++ rest = target.entries) :
    ∃ reached, Reaches current target reached ∧
      Assigned current target reached (CooperativeRebalance.assignLoop freed held rest).2 ∧
      ∀ e, reached ++ [e] <+: target.entries → Stops current target reached e := by
  induction rest generalizing before held with
  | nil =>
    refine ⟨before, hreaches, h, fun e hpre => ?_⟩
    rw [← hentries, List.append_nil] at hpre
    exact absurd hpre.length_le (by simp)
  | cons e rest ih =>
    have hpre : before ++ [e] <+: target.entries := by
      rw [← hentries]
      exact isPrefix_append_cons before e rest
    have hstops := h.stops_iff hfreed hpre
    rw [CooperativeRebalance.assignLoop]
    split
    · next part hpart =>
      have hmem := List.mem_of_find?_eq_some hpart
      have hcheck : part ∉ freed ∧ part ∈ ownedNow held := by simpa using List.find?_some hpart
      refine ⟨before, hreaches, h, fun e' hpre' => ?_⟩
      have heq : before ++ [e] = before ++ [e'] :=
        List.prefix_of_prefix_length_le hpre hpre' (by simp) |>.eq_of_length (by simp)
      obtain rfl : e = e' := by simpa using heq
      exact hstops.mp ⟨part, (Finset.mem_sort _).mp hmem, hcheck⟩
    · next hnone =>
      have hgoes : ¬ Stops current target before e := by
        rw [← hstops]
        rintro ⟨part, hpart, hcheck⟩
        exact List.find?_eq_none.mp hnone part ((Finset.mem_sort _).mpr hpart)
          (decide_eq_true hcheck)
      refine ih (h.set hpre) ⟨hpre, justified_append_singleton.mpr ⟨hreaches.2, hgoes⟩⟩ ?_
      rw [List.append_assoc]
      exact hentries

/-- Entries that are assigned already are gone through without a change. -/
theorem assignLoop_append (freed : Finset ℤ) (rest : List (String × Finset ℤ))
    {held : Dict String (Finset ℤ)} (h : ∀ e ∈ before, held.getD e.1 ∅ = e.2) :
    ∃ held', (∀ m, held'.getD m ∅ = held.getD m ∅) ∧
      CooperativeRebalance.assignLoop freed held (before ++ rest) =
        CooperativeRebalance.assignLoop freed held' rest := by
  induction before generalizing held with
  | nil => exact ⟨held, fun _ => rfl, rfl⟩
  | cons e before ih =>
    have hsame : ∀ m, (held.set e.1 e.2).getD m ∅ = held.getD m ∅ := by
      intro m
      rw [Dict.getD_set]
      split
      · next hm => rw [hm, h e List.mem_cons_self]
      · rfl
    have hbefore : ∀ e' ∈ before, (held.set e.1 e.2).getD e'.1 ∅ = e'.2 := by
      intro e' he'
      rw [hsame, h e' (List.mem_cons_of_mem _ he')]
    obtain ⟨held', hheld', hloop⟩ := ih hbefore
    refine ⟨held', fun m => (hheld' m).trans (hsame m), ?_⟩
    rw [List.cons_append, CooperativeRebalance.assignLoop, h e List.mem_cons_self,
      Finset.sdiff_self, Finset.sort_empty]
    exact hloop

theorem Assigned.getD_eq (h : Assigned current target reached held)
    (hpre : reached <+: target.entries) (he : e ∈ reached) : held.getD e.1 ∅ = e.2 := by
  ext p
  rw [h]
  constructor
  · rintro (⟨e', he', heq, hp⟩ | ⟨hne, -⟩)
    · rw [← mem_iff_of_mem_entries (hpre.subset he'), heq] at hp
      exact (mem_iff_of_mem_entries (hpre.subset he)).mp hp
    · exact absurd rfl (hne e he)
  · exact fun hp => Or.inl ⟨e, he, rfl, hp⟩

/-- The second round, begun again where it stopped. -/
theorem Assigned.assignLoop_again (hfreed : ∀ p, p ∈ freed ↔ Freed current target p)
    (h : Assigned current target before held) (hreaches : Reaches current target before) :
    ∃ reached, Reaches current target reached ∧
      Assigned current target reached
        (CooperativeRebalance.assignLoop freed held target.entries).2 ∧
      ∀ e, reached ++ [e] <+: target.entries → Stops current target reached e := by
  obtain ⟨rest, hentries⟩ := hreaches.1
  obtain ⟨held', hheld', hloop⟩ := assignLoop_append freed rest
    fun e he => h.getD_eq hreaches.1 he
  have h' : Assigned current target before held' := by
    intro m p
    rw [hheld']
    exact h m p
  rw [← hentries, hloop, hentries]
  exact h'.assignLoop hfreed hreaches hentries

end Rounds

/-! ## Runs -/

/-- The states of a rebalance: it has not begun, or the first round is over and the second has
assigned the entries up to some point. -/
inductive RebalanceState (current target : Dict String (Finset ℤ)) : CooperativeRebalance → Prop
  | start : RebalanceState current target { current := current, target := target }
  | moved {rebalance : CooperativeRebalance} {reached : List (String × Finset ℤ)}
      (phase : rebalance.phase ≠ .start) (target_eq : rebalance.target = target)
      (freed : ∀ p, p ∈ ownedNow rebalance.revoked ↔ Freed current target p)
      (reaches : Reaches current target reached)
      (assigned : Assigned current target reached rebalance.current) :
      RebalanceState current target rebalance

section Runs

variable {current target : Dict String (Finset ℤ)}

/-- **The first round.** Afterwards every member holds what it held and keeps. -/
theorem CooperativeRebalance.revokePhase_start (current target : Dict String (Finset ℤ)) :
    (revokePhase { current := current, target := target }).2.phase = .revoked ∧
      (revokePhase { current := current, target := target }).2.target = target ∧
      (∀ p, p ∈ ownedNow (revokePhase { current := current, target := target }).2.revoked ↔
        Freed current target p) ∧
      Assigned current target []
        (revokePhase { current := current, target := target }).2.current := by
  rw [revokePhase, if_neg (not_not.mpr rfl)]
  refine ⟨rfl, rfl, fun p => ?_, fun m p => ?_⟩
  · simp only [mem_ownedNow, getD_toRevoke, Finset.mem_sdiff]
    rfl
  · rw [Dict.getD_mergeWith _ _ Finset.sdiff_empty, getD_toRevoke]
    simp

/-- The second round ends with the map of its loop, whether it gets to the end or not. -/
theorem CooperativeRebalance.assignPhase_of_revoked {rebalance : CooperativeRebalance}
    (h : rebalance.phase = .revoked) :
    rebalance.assignPhase.2.phase ≠ .start ∧ rebalance.assignPhase.2.target = rebalance.target ∧
      rebalance.assignPhase.2.revoked = rebalance.revoked ∧
      rebalance.assignPhase.2.current =
        (assignLoop (ownedNow rebalance.revoked) rebalance.current rebalance.target.entries).2 := by
  rw [assignPhase, if_neg (not_not.mpr h)]
  split
  · next hloop =>
    rw [hloop]
    exact ⟨by simp [h], rfl, rfl, rfl⟩
  · next hloop =>
    rw [hloop]
    exact ⟨by simp, rfl, rfl, rfl⟩

theorem reaches_nil : Reaches current target [] := ⟨List.nil_prefix, justified_nil _⟩

theorem RebalanceState.step {rebalance : CooperativeRebalance}
    (h : RebalanceState current target rebalance) (call : RebalanceCall) :
    RebalanceState current target (cooperativeRebalance.step rebalance call).2 := by
  cases h with
  | start =>
    cases call with
    | revokePhase =>
      obtain ⟨hphase, htarget, hfreed, hassigned⟩ :=
        CooperativeRebalance.revokePhase_start current target
      refine .moved (fun hstart => ?_) htarget hfreed reaches_nil hassigned
      exact absurd (hphase.symm.trans hstart) (by decide)
    | assignPhase => exact .start
  | moved phase target_eq freed reaches assigned =>
    cases call with
    | revokePhase =>
      show RebalanceState current target rebalance.revokePhase.2
      rw [CooperativeRebalance.revokePhase, if_pos phase]
      exact .moved phase target_eq freed reaches assigned
    | assignPhase =>
      show RebalanceState current target rebalance.assignPhase.2
      by_cases hrevoked : rebalance.phase = .revoked
      · subst target_eq
        obtain ⟨hphase, htarget, hsame, hcurrent⟩ :=
          CooperativeRebalance.assignPhase_of_revoked hrevoked
        obtain ⟨reached', hreaches', hassigned', -⟩ := assigned.assignLoop_again freed reaches
        exact .moved hphase htarget (hsame ▸ freed) hreaches' (hcurrent ▸ hassigned')
      · rw [CooperativeRebalance.assignPhase, if_pos hrevoked]
        exact .moved phase target_eq freed reaches assigned

theorem RebalanceState.heldOnce {rebalance : CooperativeRebalance}
    (h : RebalanceState current target rebalance) (hcurrent : HeldOnce current)
    (hshares : SharesNoFreed current target) : HeldOnce rebalance.current := by
  cases h with
  | start => exact hcurrent
  | moved phase target_eq freed reaches assigned =>
    exact (assigned.heldOnce_iff hcurrent reaches).mpr (hshares _ reaches)

/-- The entries that the second round reaches in the end are all that it can reach. -/
theorem exists_last_reached (current target : Dict String (Finset ℤ)) :
    ∃ last, Reaches current target last ∧
      Assigned current target last (cooperativeRebalance.final
        { current := current, target := target } [.revokePhase, .assignPhase]).current ∧
      ∀ reached, Reaches current target reached → reached <+: last := by
  obtain ⟨hphase, htarget, hfreed, hassigned⟩ :=
    CooperativeRebalance.revokePhase_start current target
  obtain ⟨-, -, -, hcurrent⟩ := CooperativeRebalance.assignPhase_of_revoked hphase
  obtain ⟨last, hlast, hassigned', hstops⟩ := hassigned.assignLoop_again hfreed reaches_nil
  refine ⟨last, hlast, ?_, fun reached hreached => ?_⟩
  · show Assigned current target last (CooperativeRebalance.revokePhase
      { current := current, target := target }).2.assignPhase.2.current
    rw [hcurrent, htarget]
    exact hassigned'
  · rcases List.prefix_or_prefix_of_prefix hreached.1 hlast.1 with h | ⟨rest, rfl⟩
    · exact h
    · cases rest with
      | nil => rw [List.append_nil]
      | cons e rest =>
        have hnext := (isPrefix_append_cons last e rest).trans hreached.1
        exact absurd (hstops e hnext) (hreached.2 last e rest rfl)

/-- **When a rebalance never double-owns.** From holdings in which no partition is held twice, no
partition is held twice in any state that the two rounds lead to, called in any order and again
after an error, exactly when, as far as the second round gets, the target does not want for two
members a partition that is given up in the first. -/
theorem neverDoubleOwned_iff_sharesNoFreed (current target : Dict String (Finset ℤ))
    (hcurrent : CooperativeRebalance.neverDoubleOwned { current := current, target := target }) :
    (∀ calls, (cooperativeRebalance.final
        { current := current, target := target } calls).neverDoubleOwned) ↔
      SharesNoFreed current target := by
  have honce : HeldOnce current := CooperativeRebalance.neverDoubleOwned_iff.mp hcurrent
  constructor
  · intro h reached hreached
    obtain ⟨last, hlast, hassigned, hmax⟩ := exists_last_reached current target
    have hheld := CooperativeRebalance.neverDoubleOwned_iff.mp (h [.revokePhase, .assignPhase])
    exact ((hassigned.heldOnce_iff honce hlast).mp hheld).sublist (hmax reached hreached).sublist
  · intro h calls
    have hstate : RebalanceState current target (cooperativeRebalance.final
        { current := current, target := target } calls) :=
      Machine.always .start (fun _ call hs => hs.step call) calls
    exact CooperativeRebalance.neverDoubleOwned_iff.mpr (hstate.heldOnce honce h)

end Runs

/-- A partition that is given up and wanted once, and one that stays. -/
theorem neverDoubleOwned_iff_sharesNoFreed_moved :
    (cooperativeRebalance.final
      { current := .ofList [("a", {1, 2})], target := .ofList [("a", {1}), ("b", {2})] }
      [.revokePhase, .assignPhase]).neverDoubleOwned := by
  have h := neverDoubleOwned_iff_sharesNoFreed (.ofList [("a", {1, 2})])
    (.ofList [("a", {1}), ("b", {2})]) (by decide)
  refine h.mpr (fun reached hreached => ?_) _
  have hall : (Dict.ofList [("a", ({1} : Finset ℤ)), ("b", {2})]).entries.Pairwise
      fun e e' => ∀ p ∈ e.2, p ∉ e'.2 := by decide
  exact (hall.sublist hreached.1.sublist).imp fun hd p hp _ => hd p hp

/-- The target wants the partition that one member gives up for two others: both are given it. -/
theorem neverDoubleOwned_eq_false_of_shared :
    CooperativeRebalance.neverDoubleOwned
        { current := .ofList [("c", {1})], target := .ofList [("a", {1}), ("b", {1})] } = true ∧
      (cooperativeRebalance.final
        { current := .ofList [("c", {1})], target := .ofList [("a", {1}), ("b", {1})] }
        [.revokePhase, .assignPhase]).neverDoubleOwned = false := by
  decide +kernel

/-! ## Disjoint targets -/

section DisjointTarget

variable {current target held : Dict String (Finset ℤ)} {freed : Finset ℤ}
  {before : List (String × Finset ℤ)}

/-- Towards a target that wants no partition twice, no entry stops the second round: what somebody
else holds he gives up, and no earlier entry wants it. -/
theorem not_stops_of_heldOnce (current : Dict String (Finset ℤ)) (htarget : HeldOnce target)
    {e : String × Finset ℤ} (hpre : before ++ [e] <+: target.entries) :
    ¬ Stops current target before e := by
  have hentry : e ∈ target.entries :=
    hpre.subset (List.mem_append_right _ (List.mem_singleton_self e))
  rintro ⟨p, hp, hkept, hnone, ⟨m, hheld⟩ | ⟨e', he', hp'⟩⟩
  · have hwanted := (mem_iff_of_mem_entries hentry).mpr hp
    refine hkept ⟨m, hheld, fun hwanted' => hnone ?_⟩
    rwa [← htarget m e.1 p hwanted' hwanted]
  · have hentry' : e' ∈ target.entries := hpre.subset (List.mem_append_left _ he')
    exact ne_of_isPrefix hpre e' he' (htarget e'.1 e.1 p
      ((mem_iff_of_mem_entries hentry').mpr hp') ((mem_iff_of_mem_entries hentry).mpr hp))

theorem reaches_of_isPrefix (htarget : HeldOnce target) (h : before <+: target.entries) :
    Reaches current target before := by
  refine ⟨h, fun earlier e later hsplit => not_stops_of_heldOnce current htarget ?_⟩
  refine List.IsPrefix.trans ?_ h
  rw [hsplit]
  exact isPrefix_append_cons earlier e later

/-- Towards a target that wants no partition twice, the loop assigns any number of entries, and
goes on with the rest. -/
theorem Assigned.assignLoop_ok (hfreed : ∀ p, p ∈ freed ↔ Freed current target p)
    (htarget : HeldOnce target) (h : Assigned current target before held)
    (now : List (String × Finset ℤ)) (hpre : before ++ now <+: target.entries) :
    ∃ held', CooperativeRebalance.assignLoop freed held now = (.ok (), held') ∧
      Assigned current target (before ++ now) held' ∧
      ∀ rest, CooperativeRebalance.assignLoop freed held (now ++ rest) =
        CooperativeRebalance.assignLoop freed held' rest := by
  induction now generalizing before held with
  | nil => exact ⟨held, rfl, (List.append_nil before).symm ▸ h, fun _ => rfl⟩
  | cons e now ih =>
    have hnext : before ++ [e] <+: target.entries := (isPrefix_append_cons before e now).trans hpre
    have hnone : ((e.2 \ held.getD e.1 ∅).sort (· ≤ ·)).find?
        (fun part => part ∉ freed ∧ part ∈ ownedNow held) = none := by
      rw [List.find?_eq_none]
      intro part hpart hcheck
      refine not_stops_of_heldOnce current htarget hnext ?_
      exact (h.stops_iff hfreed hnext).mp
        ⟨part, (Finset.mem_sort _).mp hpart, of_decide_eq_true hcheck⟩
    rw [List.append_cons] at hpre
    obtain ⟨held', hloop, hassigned, hrest⟩ := ih (h.set hnext) hpre
    refine ⟨held', ?_, ?_, fun rest => ?_⟩
    · rw [CooperativeRebalance.assignLoop, hnone]
      exact hloop
    · rw [List.append_cons]
      exact hassigned
    · rw [List.cons_append, CooperativeRebalance.assignLoop, hnone]
      exact hrest rest

/-- Members of the entries hold what the entries want, and when these are all entries of the target,
the others hold nothing. -/
theorem Assigned.getD_of_entries (h : Assigned current target target.entries held) (m : String) :
    held.getD m ∅ = target.getD m ∅ := by
  by_cases hm : ∃ e ∈ target.entries, e.1 = m
  · obtain ⟨e, he, rfl⟩ := hm
    ext p
    rw [h.getD_eq (List.prefix_refl _) he, mem_iff_of_mem_entries he]
  · push Not at hm
    have habsent : target.getD m ∅ = ∅ := Dict.getD_of_not_mem_keys (fun hmem => by
      obtain ⟨e, he, heq⟩ := List.mem_map.mp hmem
      exact hm e he heq) ∅
    ext p
    rw [h, habsent]
    simp only [Finset.notMem_empty, and_false, or_false, iff_false]
    rintro ⟨e, he, heq, -⟩
    exact hm e he heq

end DisjointTarget

/-- **A rebalance towards disjoint sets.** From holdings and towards a target in which no partition
stands twice: the first round leaves every member what it holds and keeps, the second never stops,
no partition is held twice whatever part of the second round is over, and in the end the members of
the target hold what it says and the others nothing. -/
theorem revokePhase_assignPhase_of_heldOnce (current target : Dict String (Finset ℤ))
    (hcurrent : HeldOnce current) (htarget : HeldOnce target)
    (revoked : CooperativeRebalance)
    (hrevoked : revoked =
      (CooperativeRebalance.revokePhase { current := current, target := target }).2) :
    (∀ m, revoked.current.getD m ∅ = current.getD m ∅ ∩ target.getD m ∅ ∧
        revoked.revoked.getD m ∅ = current.getD m ∅ \ target.getD m ∅) ∧
      (∀ before after, revoked.target.entries = before ++ after → ∃ held,
        CooperativeRebalance.assignLoop (ownedNow revoked.revoked) revoked.current before =
            (.ok (), held) ∧
          CooperativeRebalance.assignLoop (ownedNow revoked.revoked) revoked.current
              revoked.target.entries =
            CooperativeRebalance.assignLoop (ownedNow revoked.revoked) held after ∧
          HeldOnce held) ∧
      revoked.assignPhase.1 = .ok "assigned; no partition was ever owned by two" ∧
      (∀ m wanted, target.get? m = some wanted →
        revoked.assignPhase.2.current.getD m ∅ = wanted) ∧
      ∀ m, target.get? m = none → revoked.assignPhase.2.current.getD m ∅ = ∅ := by
  obtain ⟨hphase, htargeteq, hfreed, hassigned⟩ :=
    CooperativeRebalance.revokePhase_start current target
  rw [← hrevoked] at hphase htargeteq hfreed hassigned
  obtain ⟨held, hloop, hend, -⟩ := hassigned.assignLoop_ok hfreed htarget target.entries
    (List.prefix_refl _)
  have hfinal : revoked.assignPhase = (.ok "assigned; no partition was ever owned by two",
      { revoked with current := held, phase := .done }) := by
    rw [CooperativeRebalance.assignPhase, if_neg (not_not.mpr hphase), htargeteq, hloop]
  refine ⟨fun m => ⟨?_, ?_⟩, fun before after hsplit => ?_, ?_, fun m wanted hm => ?_,
    fun m hm => ?_⟩
  · ext p
    rw [hassigned, Finset.mem_inter]
    simp
  · rw [hrevoked]
    exact getD_toRevoke { current := current, target := target } m
  · rw [htargeteq] at hsplit ⊢
    have hpre : before <+: target.entries := hsplit ▸ List.prefix_append before after
    obtain ⟨held', hloop', hheld', hrest⟩ :=
      hassigned.assignLoop_ok hfreed htarget before hpre
    refine ⟨held', hloop', hsplit ▸ hrest after, ?_⟩
    rw [hheld'.heldOnce_iff hcurrent (reaches_of_isPrefix htarget hpre)]
    have hkeys : (before.map Prod.fst).Nodup := target.nodup.sublist (hpre.sublist.map _)
    refine (List.pairwise_map.mp hkeys).imp_of_mem fun {e e'} he he' hne p hp _ hp' => hne ?_
    exact htarget e.1 e'.1 p ((mem_iff_of_mem_entries (hpre.subset he)).mpr hp)
      ((mem_iff_of_mem_entries (hpre.subset he')).mpr hp')
  · rw [hfinal]
  · rw [hfinal, Assigned.getD_of_entries hend, Dict.getD, hm]
    rfl
  · rw [hfinal, Assigned.getD_of_entries hend, Dict.getD, hm]
    rfl

/-- A third member joins two. -/
theorem revokePhase_assignPhase_of_heldOnce_joins :
    (CooperativeRebalance.revokePhase
      { current := .ofList [("c1", {0, 1, 2, 3}), ("c2", {4, 5, 6, 7})]
        target := .ofList [("c1", {0, 1, 2}), ("c2", {4, 5, 6}), ("c3", {3, 7})]
        }).2.assignPhase.1 = .ok "assigned; no partition was ever owned by two" :=
  (revokePhase_assignPhase_of_heldOnce _ _
    ((@CooperativeRebalance.neverDoubleOwned_iff { current := _, target := ∅ }).mp (by decide))
    ((@CooperativeRebalance.neverDoubleOwned_iff { current := _, target := ∅ }).mp (by decide))
    _ rfl).2.2.1

end Relay
