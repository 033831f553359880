import Mathlib.Data.Finset.Sort
import Relay.Lib.Printing
import Relay.Rebalance

/-!
# The gate an assignment goes through

An assignment of partitions to members goes live only if no partition is with two members and none
of the partitions there are is with nobody. The gate names what is wrong: the partitions with
several members and who these are, and the partitions without one.

A partition that does not exist may be assigned, as long as it is assigned only once.

The loop over the partitions of a member takes them in ascending order. What it builds is looked up
by partition, so that the order makes no difference.

## Main definitions

* `AssignmentValidator`, with `doubleOwned`, `orphaned` and `validate`
* `AssignmentValidator.Owns`: who has which partition

## Main results

* `AssignmentValidator.validate_answers`: what is named, and when an assignment passes
* `stickyAssign_passes`: what the sticky assignor puts out passes
-/

namespace Relay

/-- A list of partitions, as it is printed. -/
def showPartitions (partitions : List ℤ) : String :=
  Printing.listText (partitions.map toString)

/-- The validator, with the partitions there are. -/
structure AssignmentValidator where
  allPartitions : Finset ℤ
  deriving DecidableEq

namespace AssignmentValidator

theorem isTrans_le_partition : IsTrans ℤ (· ≤ ·) := inferInstance

theorem antisymm_le_partition : Std.Antisymm (α := ℤ) (· ≤ ·) := inferInstance

theorem total_le_partition : Std.Total (α := ℤ) (· ≤ ·) := inferInstance

attribute [local instance] isTrans_le_partition antisymm_le_partition total_le_partition

/-- One member's partitions, entered with the owners. -/
def enter (owners : Dict ℤ (List String)) (member : String) (partitions : List ℤ) :
    Dict ℤ (List String) :=
  partitions.foldl (fun owners partition =>
    owners.set partition (owners.getD partition [] ++ [member])) owners

/-- The owners of every partition that is with somebody. -/
def owners (assignment : Dict String (Finset ℤ)) : Dict ℤ (List String) :=
  assignment.entries.foldl (fun owners e => enter owners e.1 (e.2.sort (· ≤ ·))) ∅

/-- `double_owned`. -/
def doubleOwned (assignment : Dict String (Finset ℤ)) : Dict ℤ (List String) :=
  ((owners assignment).filter fun _ members => 1 < members.length).mapValues fun _ members =>
    members.mergeSort fun m m' => m ≤ m'

/-- `orphaned`. -/
def orphaned (validator : AssignmentValidator) (assignment : Dict String (Finset ℤ)) : Finset ℤ :=
  validator.allPartitions \ assignment.values.foldl (fun assigned parts => assigned ∪ parts) ∅

/-- `validate`. -/
def validate (validator : AssignmentValidator) (assignment : Dict String (Finset ℤ)) :
    Except RelayError String :=
  let double := doubleOwned assignment
  let orphans := validator.orphaned assignment
  let pairs := "; ".intercalate ((double.keys.mergeSort fun p q => p ≤ q).map fun p =>
    toString p ++ " by " ++ ", ".intercalate (double.getD p []))
  let problems :=
    (if double.entries ≠ [] then
      [s!"double-owned ({pairs}): two consumers double-process and commit conflicting offsets"]
    else []) ++
    (if orphans ≠ ∅ then
      [s!"orphaned {showPartitions (orphans.sort (· ≤ ·))}: read by nobody, lag grows forever, " ++
        "the silent gap a per-member view never reveals"]
    else [])
  if problems ≠ [] then
    .error (.invalid ("assignment rejected before going live: " ++ "; ".intercalate problems))
  else .ok s!"assignment valid: {validator.allPartitions.card} partition(s) each owned exactly once"

/-- A member has a partition. -/
def Owns (assignment : Dict String (Finset ℤ)) (member : String) (p : ℤ) : Prop :=
  ∃ parts, assignment.get? member = some parts ∧ p ∈ parts

variable {assignment : Dict String (Finset ℤ)} {p : ℤ}

theorem getD_enter (owners : Dict ℤ (List String)) (member : String) {partitions : List ℤ}
    (hnodup : partitions.Nodup) :
    (enter owners member partitions).getD p [] =
      owners.getD p [] ++ if p ∈ partitions then [member] else [] := by
  induction partitions generalizing owners with
  | nil => simp [enter]
  | cons q partitions ih =>
    obtain ⟨hout, hnodup⟩ := List.nodup_cons.mp hnodup
    rw [enter, List.foldl_cons, ← enter, ih _ hnodup, Dict.getD_set]
    by_cases hp : p = q
    · subst hp
      rw [if_pos rfl, if_neg hout, if_pos List.mem_cons_self, List.append_nil]
    · rw [if_neg hp]
      simp [hp]

theorem getD_foldl_enter (entries : List (String × Finset ℤ)) (owners : Dict ℤ (List String)) :
    (entries.foldl (fun owners e => enter owners e.1 (e.2.sort (· ≤ ·))) owners).getD p [] =
      owners.getD p [] ++ (entries.filter fun e => p ∈ e.2).map Prod.fst := by
  induction entries generalizing owners with
  | nil => simp
  | cons e entries ih =>
    have hsort : p ∈ e.2.sort (· ≤ ·) ↔ p ∈ e.2 := Finset.mem_sort _
    rw [List.foldl_cons, ih, getD_enter _ _ (e.2.sort_nodup (· ≤ ·)), List.append_assoc]
    by_cases hp : p ∈ e.2
    · rw [if_pos (hsort.mpr hp), List.filter_cons_of_pos (by simpa using hp), List.map_cons,
        List.singleton_append]
    · rw [if_neg (hsort.not.mpr hp), List.filter_cons_of_neg (by simpa using hp), List.nil_append]

/-- The owners of a partition, in the order of the assignment. -/
theorem getD_owners (assignment : Dict String (Finset ℤ)) (p : ℤ) :
    (owners assignment).getD p [] = (assignment.entries.filter fun e => p ∈ e.2).map Prod.fst :=
  getD_foldl_enter assignment.entries ∅

theorem mem_getD_owners {m : String} : m ∈ (owners assignment).getD p [] ↔ Owns assignment m p := by
  rw [getD_owners]
  constructor
  · intro h
    obtain ⟨⟨name, parts⟩, he, rfl⟩ := List.mem_map.mp h
    obtain ⟨hmem, hp⟩ := List.mem_filter.mp he
    exact ⟨parts, assignment.mem_entries_iff.mp hmem, of_decide_eq_true hp⟩
  · rintro ⟨parts, hget, hp⟩
    refine List.mem_map.mpr ⟨(m, parts), List.mem_filter.mpr ⟨?_, decide_eq_true hp⟩, rfl⟩
    exact assignment.mem_entries_iff.mpr hget

theorem nodup_getD_owners (assignment : Dict String (Finset ℤ)) (p : ℤ) :
    ((owners assignment).getD p []).Nodup := by
  rw [getD_owners]
  exact (List.filter_sublist.map Prod.fst).nodup assignment.nodup

/-- Named as owned twice are the partitions with several members, with all of these in the order of
the alphabet. -/
theorem get?_doubleOwned {members : List String} :
    (doubleOwned assignment).get? p = some members ↔
      1 < members.length ∧ members.Pairwise (· < ·) ∧ ∀ m, m ∈ members ↔ Owns assignment m p := by
  have hsorted : ∀ l : List String, l.Nodup →
      (l.mergeSort fun m m' => m ≤ m').Pairwise (· < ·) := fun l hnodup => by
    have hle : (l.mergeSort fun m m' => m ≤ m').Pairwise (· ≤ ·) := List.pairwise_mergeSort' _ _
    exact (hle.and ((List.mergeSort_perm l _).nodup_iff.mpr hnodup)).imp fun h =>
      lt_of_le_of_ne h.1 h.2
  have hnodup := nodup_getD_owners assignment p
  rw [doubleOwned, Dict.get?_mapValues, Dict.get?_filter]
  cases howners : (owners assignment).get? p with
  | none =>
    have hnil : (owners assignment).getD p [] = [] := by rw [Dict.getD, howners]; rfl
    refine iff_of_false (by simp) ?_
    rintro ⟨hlen, -, hmem⟩
    have hempty : members = [] := List.eq_nil_iff_forall_not_mem.mpr fun m hm => by
      have hin := mem_getD_owners.mpr ((hmem m).mp hm)
      rw [hnil] at hin
      exact List.not_mem_nil hin
    rw [hempty] at hlen
    exact Nat.not_lt_zero 1 hlen
  | some l =>
    have hl : (owners assignment).getD p [] = l := by rw [Dict.getD, howners]; rfl
    rw [hl] at hnodup
    have hiff : ∀ m, m ∈ l ↔ Owns assignment m p := fun m => hl ▸ mem_getD_owners
    have hperm := List.mergeSort_perm l fun m m' => m ≤ m'
    constructor
    · intro h
      obtain ⟨l', hkept, rfl⟩ := Option.map_eq_some_iff.mp h
      obtain ⟨heq, hlen⟩ := Option.filter_eq_some_iff.mp hkept
      obtain rfl := Option.some.inj heq
      refine ⟨?_, hsorted l hnodup, fun m => hperm.mem_iff.trans (hiff m)⟩
      rw [hperm.length_eq]
      exact of_decide_eq_true hlen
    · rintro ⟨hlen, hlt, hmem⟩
      have hmembers : (l.mergeSort fun m m' => m ≤ m') = members := by
        refine List.Perm.eq_of_pairwise (fun a b _ _ hab hba => absurd hba hab.asymm)
          (hsorted l hnodup) hlt ?_
        refine hperm.trans ((List.perm_ext_iff_of_nodup hnodup ?_).mpr fun m => ?_)
        · exact hlt.imp ne_of_lt
        · rw [hiff, hmem]
      have hlen' : 1 < l.length := by rwa [← hperm.length_eq, hmembers]
      rw [Option.filter_some, if_pos (decide_eq_true hlen'), Option.map_some, hmembers]

theorem mem_foldl_union (sets : List (Finset ℤ)) (start : Finset ℤ) :
    p ∈ sets.foldl (fun assigned parts => assigned ∪ parts) start ↔
      p ∈ start ∨ ∃ parts ∈ sets, p ∈ parts := by
  induction sets generalizing start with
  | nil => simp
  | cons parts sets ih =>
    rw [List.foldl_cons, ih, Finset.mem_union, or_assoc]
    simp

/-- Orphaned are the partitions there are that no member has. -/
theorem mem_orphaned {validator : AssignmentValidator} :
    p ∈ validator.orphaned assignment ↔
      p ∈ validator.allPartitions ∧ ∀ m, ¬ Owns assignment m p := by
  rw [orphaned, Finset.mem_sdiff, mem_foldl_union]
  refine and_congr_right fun _ => ?_
  rw [or_iff_right (Finset.notMem_empty p), not_exists]
  constructor
  · rintro h m ⟨parts, hget, hp⟩
    exact h parts ⟨assignment.mem_values_iff.mpr ⟨m, hget⟩, hp⟩
  · rintro h parts ⟨hvalue, hp⟩
    obtain ⟨m, hget⟩ := assignment.mem_values_iff.mp hvalue
    exact h m ⟨parts, hget, hp⟩

theorem entries_doubleOwned_eq_nil_iff :
    (doubleOwned assignment).entries = [] ↔
      ∀ p m m', Owns assignment m p → Owns assignment m' p → m = m' := by
  rw [Dict.entries_eq_nil_iff]
  constructor
  · intro h p m m' hm hm'
    by_contra hne
    -- the owners of the partition are at least these two
    have hlen : 1 < ((owners assignment).getD p []).length := by
      have hsub : [m, m'] ⊆ (owners assignment).getD p [] := fun k hk => by
        rcases List.mem_cons.mp hk with rfl | hk
        · exact mem_getD_owners.mpr hm
        · exact List.mem_singleton.mp hk ▸ mem_getD_owners.mpr hm'
      exact (List.subperm_of_subset (by simpa using hne) hsub).length_le
    have hnone := h p
    rw [doubleOwned, Dict.get?_mapValues, Dict.get?_filter, Option.map_eq_none_iff,
      Option.filter_eq_none_iff] at hnone
    obtain ⟨l, hl⟩ : ∃ l, (owners assignment).get? p = some l := by
      by_contra hno
      rw [Dict.getD, Option.eq_none_iff_forall_ne_some.mpr fun l hl => hno ⟨l, hl⟩] at hlen
      exact Nat.not_lt_zero 1 hlen
    rw [Dict.getD, hl] at hlen
    exact hnone l hl (decide_eq_true hlen)
  · intro h p
    refine Option.eq_none_iff_forall_ne_some.mpr fun members hmembers => ?_
    obtain ⟨hlen, hlt, hmem⟩ := get?_doubleOwned.mp hmembers
    rcases members with - | ⟨m, - | ⟨m', rest⟩⟩
    · exact Nat.not_lt_zero 1 hlen
    · exact lt_irrefl 1 hlen
    · obtain rfl := h p m m' ((hmem m).mp List.mem_cons_self)
        ((hmem m').mp (List.mem_cons_of_mem _ List.mem_cons_self))
      exact lt_irrefl m ((List.pairwise_cons.mp hlt).1 m List.mem_cons_self)

/-- **What passes the gate.** Every partition there is is with somebody, and no partition is with
two members. -/
theorem validate_eq_ok_iff {validator : AssignmentValidator} :
    (∃ report, validator.validate assignment = .ok report) ↔
      (∀ p ∈ validator.allPartitions, ∃ m, Owns assignment m p) ∧
        ∀ p m m', Owns assignment m p → Owns assignment m' p → m = m' := by
  rw [← entries_doubleOwned_eq_nil_iff]
  have horphans : validator.orphaned assignment = ∅ ↔
      ∀ p ∈ validator.allPartitions, ∃ m, Owns assignment m p := by
    rw [Finset.eq_empty_iff_forall_notMem]
    refine forall_congr' fun p => ?_
    rw [mem_orphaned, not_and, not_forall_not]
  rw [← horphans, validate]
  by_cases horphan : validator.orphaned assignment = ∅
  · by_cases hdouble : (doubleOwned assignment).entries = []
    · simp [horphan, hdouble]
    · simp [horphan, hdouble]
  · simp [horphan]

/-- **The gate.** What passes has every partition there is with exactly one member. What is named as
owned twice are the partitions with several members, each with all of them, and what is named as
orphaned are the partitions with none. -/
theorem validate_answers (validator : AssignmentValidator)
    (assignment : Dict String (Finset ℤ)) :
    ((∃ report, validator.validate assignment = .ok report) ↔
      (∀ p ∈ validator.allPartitions, ∃ m, Owns assignment m p) ∧
        ∀ p m m', Owns assignment m p → Owns assignment m' p → m = m') ∧
      (∀ p members, (doubleOwned assignment).get? p = some members ↔
        1 < members.length ∧ members.Pairwise (· < ·) ∧
          ∀ m, m ∈ members ↔ Owns assignment m p) ∧
      ∀ p, p ∈ validator.orphaned assignment ↔
        p ∈ validator.allPartitions ∧ ∀ m, ¬ Owns assignment m p :=
  ⟨validate_eq_ok_iff, fun _ _ => get?_doubleOwned, fun _ => mem_orphaned⟩

end AssignmentValidator

/-! ## What the sticky assignor puts out -/

open Rebalance

/-- The lists of an assignment as sets. -/
theorem owns_mapValues_iff {byMember : Dict String (List ℤ)} {m : String} {p : ℤ} :
    AssignmentValidator.Owns (byMember.mapValues fun _ parts => parts.toFinset) m p ↔
      p ∈ byMember.getD m [] := by
  rw [AssignmentValidator.Owns, Dict.get?_mapValues, Dict.getD]
  cases byMember.get? m with
  | none => simp
  | some parts => simp

/-- **The sticky assignor passes the gate**, whatever the members had before. -/
theorem stickyAssign_passes {partitions : List ℤ} {members : List String}
    (previous : Option Assignment) (hpartitions : partitions.Nodup) (hmembers : members.Nodup)
    (hne : members ≠ []) :
    ∃ assignment moved, stickyAssign partitions members previous = .ok (assignment, moved) ∧
      ∃ report, AssignmentValidator.validate ⟨partitions.toFinset⟩
        (assignment.byMember.mapValues fun _ parts => parts.toFinset) = .ok report := by
  obtain ⟨assignment, moved, left, target, hok, hfilling, -⟩ :=
    stickyAssign_spec previous hpartitions hmembers hne
  refine ⟨assignment, moved, hok, AssignmentValidator.validate_eq_ok_iff.mpr ⟨?_, ?_⟩⟩
  · intro p hp
    obtain ⟨m, -, hm⟩ := hfilling.sharing.exists_mem (List.mem_toFinset.mp hp)
    exact ⟨m, owns_mapValues_iff.mpr hm⟩
  · intro p m m' hm hm'
    exact hfilling.sharing.eq_of_mem hpartitions (owns_mapValues_iff.mp hm)
      (owns_mapValues_iff.mp hm')

theorem stickyAssign_passes_two :
    ∃ assignment moved, stickyAssign [0, 1, 2] ["b", "a"] none = .ok (assignment, moved) ∧
      ∃ report, AssignmentValidator.validate ⟨([0, 1, 2] : List ℤ).toFinset⟩
        (assignment.byMember.mapValues fun _ parts => parts.toFinset) = .ok report :=
  stickyAssign_passes none (by decide) (by decide) (by decide)

end Relay
