import Mathlib.Data.Int.ConditionallyCompleteOrder
import Mathlib.Data.List.Nodup
import Mathlib.Order.Lattice
import Relay.Errors

/-!
# Read repair

A read collects the values of several replicas with their versions, answers with the newest, and
names the replicas whose version is behind, so that the newest value may be written back to them.

Which replicas are stale is judged by the versions alone. Replicas that share the newest version
but hold different values are concurrent writes; the first of them wins, none of the others is
named, and they go on disagreeing. That is the only way for a repair to fail: the replicas agree
afterwards exactly when those with the newest version did so before.

## Scope

The report on which replicas are behind is left out. The reader has no state, and its function
stands alone.

## Main definitions

* `resolve`, and `concurrentConflict`, which `resolve` does not ask
* `Repairs`: what a read promises to those that write its answer back

## Main results

* `resolve_eq`: the newest value, and the replicas behind it
* `repairs_iff`: exactly when a repair makes the replicas agree
* `concurrentConflict_iff`: versions of which neither dominates the other
-/

namespace Relay

/-- What a replica answers. -/
structure ReplicaValue where
  replica : String
  value : String
  version : ℤ
  deriving DecidableEq

namespace ReadRepair

/-- The first of those with the largest version: a replica gives way only to a newer one. -/
def newestFrom (newest : ReplicaValue) : List ReplicaValue → ReplicaValue
  | [] => newest
  | r :: replicas => newestFrom (if newest.version < r.version then r else newest) replicas

/-- `resolve`. -/
def resolve (replicas : List ReplicaValue) : Except RelayError (String × List String) :=
  match replicas with
  | [] => .error (.invalid "no replicas to read from")
  | first :: others =>
    let newest := newestFrom first others
    let behind := (replicas.filter fun r => r.version < newest.version).map ReplicaValue.replica
    .ok (newest.value, behind)

/-- `concurrent_conflict`. -/
def concurrentConflict : List (ℤ × ℤ) → Bool
  | [] => false
  | vi :: versions =>
    (versions.any fun vj =>
      (decide (vi.1 > vj.1) || decide (vi.2 > vj.2)) &&
        (decide (vj.1 > vi.1) || decide (vj.2 > vi.2))) || concurrentConflict versions

/-- A value is written to the replicas that are named. -/
def writeBack (replicas : List ReplicaValue) (value : String) (version : ℤ)
    (behind : List String) : List ReplicaValue :=
  replicas.map fun r =>
    if r.replica ∈ behind then { r with value := value, version := version } else r

/-- None of the replicas has a newer version than this one. -/
def Newest (replicas : List ReplicaValue) (r : ReplicaValue) : Prop :=
  r ∈ replicas ∧ ∀ s ∈ replicas, s.version ≤ r.version

/-- Unless it raises, a read answers with a value that, once it has been written with the newest
version to the replicas the read names, is the value of all of them and the answer to the next read,
which names none. -/
def Repairs (replicas : List ReplicaValue) : Prop :=
  ∀ value behind, resolve replicas = .ok (value, behind) →
    ∀ newest, Newest replicas newest →
      let repaired := writeBack replicas value newest.version behind
      (∀ r ∈ repaired, r.value = value) ∧ resolve repaired = .ok (value, [])

/-! ### One read -/

variable {replicas : List ReplicaValue}

theorem newest_newestFrom (first : ReplicaValue) (others : List ReplicaValue) :
    Newest (first :: others) (newestFrom first others) := by
  induction others generalizing first with
  | nil => exact ⟨List.mem_cons_self, fun s hs => (List.mem_singleton.mp hs ▸ le_refl _)⟩
  | cons r others ih =>
    rw [newestFrom]
    split
    · rename_i hnewer
      obtain ⟨hmem, hle⟩ := ih r
      refine ⟨List.mem_cons_of_mem _ hmem, List.forall_mem_cons.mpr ⟨?_, hle⟩⟩
      exact hnewer.le.trans (hle r List.mem_cons_self)
    · rename_i hkept
      obtain ⟨hmem, hle⟩ := ih first
      have hfirst := hle first List.mem_cons_self
      refine ⟨(List.mem_cons.mp hmem).elim (fun h => List.mem_cons.mpr (Or.inl h))
        fun h => List.mem_cons_of_mem _ (List.mem_cons_of_mem _ h), ?_⟩
      refine List.forall_mem_cons.mpr ⟨hfirst, List.forall_mem_cons.mpr ⟨?_, fun s hs => ?_⟩⟩
      · exact (not_lt.mp hkept).trans hfirst
      · exact hle s (List.mem_cons_of_mem _ hs)

theorem Newest.version_eq {r s : ReplicaValue} (hr : Newest replicas r) (hs : Newest replicas s) :
    r.version = s.version :=
  le_antisymm (hs.2 r hr.1) (hr.2 s hs.1)

/-- **One read.** It raises when there is nothing to read. Otherwise it answers with the value of
some newest replica, and names those that are behind. -/
theorem resolve_eq {newest : ReplicaValue} (hnewest : Newest replicas newest) :
    ∃ r, Newest replicas r ∧ resolve replicas =
      .ok (r.value, (replicas.filter fun s => s.version < newest.version).map
        ReplicaValue.replica) := by
  cases replicas with
  | nil => exact absurd hnewest.1 List.not_mem_nil
  | cons first others =>
    have hr := newest_newestFrom first others
    refine ⟨newestFrom first others, hr, ?_⟩
    rw [← hr.version_eq hnewest, resolve]

/-- A read of replicas that agree in value and version names none. -/
theorem resolve_of_agree {value : String} {version : ℤ} (hne : replicas ≠ [])
    (hvalue : ∀ r ∈ replicas, r.value = value) (hversion : ∀ r ∈ replicas, r.version = version) :
    resolve replicas = .ok (value, []) := by
  obtain ⟨first, hfirst⟩ := List.exists_mem_of_ne_nil replicas hne
  have hnewest : Newest replicas first :=
    ⟨hfirst, fun s hs => ((hversion s hs).trans (hversion first hfirst).symm).le⟩
  obtain ⟨r, hr, hresolve⟩ := resolve_eq hnewest
  have hnone : (replicas.filter fun s => s.version < first.version) = [] :=
    List.filter_eq_nil_iff.mpr fun s hs => by
      rw [hversion s hs, hversion first hfirst, decide_eq_true_eq]
      exact lt_irrefl version
  rw [hresolve, hnone, hvalue r hr.1]
  rfl

/-! ### Repairs -/

/-- With distinct names, the newest replicas are not among those that are named. -/
theorem Newest.not_mem_behind (hdistinct : (replicas.map ReplicaValue.replica).Nodup)
    {r newest : ReplicaValue} (hr : Newest replicas r) (hnewest : Newest replicas newest) :
    r.replica ∉ (replicas.filter fun s => s.version < newest.version).map ReplicaValue.replica := by
  intro hmem
  obtain ⟨s, hs, hname⟩ := List.mem_map.mp hmem
  obtain ⟨hs, hbehind⟩ := List.mem_filter.mp hs
  obtain rfl := List.inj_on_of_nodup_map hdistinct hs hr.1 hname
  rw [decide_eq_true_eq, hr.version_eq hnewest] at hbehind
  exact lt_irrefl _ hbehind

/-- Nothing is written to a newest replica. After a repair it holds the answer, so it held it
before. -/
theorem Newest.value_eq (hdistinct : (replicas.map ReplicaValue.replica).Nodup)
    (hrepairs : Repairs replicas) {newest : ReplicaValue} (hnewest : Newest replicas newest)
    {value : String} {behind : List String} (hresolve : resolve replicas = .ok (value, behind)) :
    newest.value = value := by
  obtain ⟨r, -, heq⟩ := resolve_eq hnewest
  obtain ⟨rfl, rfl⟩ := Prod.mk.inj (Except.ok.inj (heq.symm.trans hresolve))
  refine (hrepairs _ _ hresolve newest hnewest).1 newest
    (List.mem_map.mpr ⟨newest, hnewest.1, ?_⟩)
  exact if_neg (hnewest.not_mem_behind hdistinct hnewest)

/-- A replica that is not named is a newest one. -/
theorem Newest.of_not_mem_behind {newest s : ReplicaValue} (hnewest : Newest replicas newest)
    (hs : s ∈ replicas)
    (hnot : s.replica ∉ (replicas.filter fun s => s.version < newest.version).map
      ReplicaValue.replica) : Newest replicas s := by
  refine ⟨hs, fun t ht => (hnewest.2 t ht).trans (not_lt.mp fun hlt => hnot ?_)⟩
  exact List.mem_map_of_mem (List.mem_filter.mpr ⟨hs, decide_eq_true hlt⟩)

/-- **Read repair.** Writing back the answer of a read makes the replicas agree exactly when those
with the newest version hold one value. -/
theorem repairs_iff (replicas : List ReplicaValue)
    (hdistinct : (replicas.map ReplicaValue.replica).Nodup) :
    Repairs replicas ↔
      ∀ r s, Newest replicas r → Newest replicas s → r.value = s.value := by
  constructor
  · intro hrepairs r s hr hs
    obtain ⟨_, -, hresolve⟩ := resolve_eq hr
    rw [hr.value_eq hdistinct hrepairs hresolve, hs.value_eq hdistinct hrepairs hresolve]
  · intro hagree value behind hresolve newest hnewest
    obtain ⟨r, hr, heq⟩ := resolve_eq hnewest
    obtain ⟨rfl, rfl⟩ := Prod.mk.inj (Except.ok.inj (heq.symm.trans hresolve))
    have hall : ∀ s ∈ writeBack replicas r.value newest.version
        ((replicas.filter fun s => s.version < newest.version).map ReplicaValue.replica),
        s.value = r.value ∧ s.version = newest.version := by
      intro s hs
      obtain ⟨t, ht, rfl⟩ := List.mem_map.mp hs
      split
      · exact ⟨rfl, rfl⟩
      · next hnot =>
        have hkept := hnewest.of_not_mem_behind ht hnot
        exact ⟨hagree t r hkept hr, hkept.version_eq hnewest⟩
    refine ⟨fun s hs => (hall s hs).1, resolve_of_agree ?_ (fun s hs => (hall s hs).1)
      fun s hs => (hall s hs).2⟩
    rw [writeBack, ne_eq, List.map_eq_nil_iff]
    exact List.ne_nil_of_mem hnewest.1

/-- One replica is behind, and the other two agree. -/
def oneBehind : List ReplicaValue := [⟨"a", "x", 2⟩, ⟨"b", "w", 1⟩, ⟨"c", "x", 2⟩]

/-- **The theorem at one replica behind.** -/
theorem oneBehind_repairs : Repairs oneBehind := by
  refine (repairs_iff oneBehind (by decide)).mpr fun r s hr hs => ?_
  have hvalue (t : ReplicaValue) (ht : Newest oneBehind t) : t.value = "x" := by
    have hnewest := ht.2 ⟨"a", "x", 2⟩ (by decide)
    obtain ⟨hmem, -⟩ := ht
    simp only [oneBehind, List.mem_cons, List.not_mem_nil, or_false] at hmem
    rcases hmem with rfl | rfl | rfl
    · rfl
    · exact absurd hnewest (by decide)
    · rfl
  rw [hvalue r hr, hvalue s hs]

/-- Two replicas hold different values with the same version. The read answers with the first, has
nothing to repair, and leaves them as they are. -/
theorem concurrent_writes_kept :
    resolve [⟨"a", "x", 1⟩, ⟨"b", "y", 1⟩] = .ok ("x", []) ∧
      ¬ Repairs [⟨"a", "x", 1⟩, ⟨"b", "y", 1⟩] := by
  refine ⟨by decide, fun h => ?_⟩
  have hnewest : Newest [⟨"a", "x", 1⟩, ⟨"b", "y", 1⟩] ⟨"a", "x", 1⟩ := by
    refine ⟨by decide, ?_⟩
    decide
  have hvalue := (h "x" [] (by decide) _ hnewest).1 ⟨"b", "y", 1⟩ (by decide)
  exact absurd hvalue (by decide)

/-! ### Concurrent versions -/

/-- **Concurrent versions.** There is a conflict unless of any two versions one dominates the
other. -/
theorem concurrentConflict_iff (versions : List (ℤ × ℤ)) :
    concurrentConflict versions = true ↔ ¬ versions.Pairwise fun v w => v ≤ w ∨ w ≤ v := by
  induction versions with
  | nil => simp [concurrentConflict]
  | cons vi versions ih =>
    have hpair (vj : ℤ × ℤ) : ((decide (vi.1 > vj.1) || decide (vi.2 > vj.2)) &&
        (decide (vj.1 > vi.1) || decide (vj.2 > vi.2))) = true ↔ ¬ (vi ≤ vj ∨ vj ≤ vi) := by
      rw [Prod.le_def, Prod.le_def]
      simp only [Bool.and_eq_true, Bool.or_eq_true, decide_eq_true_eq]
      omega
    rw [concurrentConflict, Bool.or_eq_true, ih, List.any_eq_true, List.pairwise_cons, not_and_or]
    simp only [hpair, not_forall, exists_prop]

end ReadRepair

end Relay
