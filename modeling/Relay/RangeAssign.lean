import Mathlib.Algebra.Order.Ring.Int
import Mathlib.Data.Int.Range
import Mathlib.Data.List.Sort
import Mathlib.Data.String.Basic
import Mathlib.Tactic.Ring
import Relay.AssignmentCheck
import Relay.Errors
import Relay.Lib.Dict

/-!
# Range assignment

The partitions of a topic are cut into as many runs as there are consumers, and the consumers in
order of their names get one run each. The runs are equally long, up to the partitions left over,
and these go one each to the first. Topics with equally many partitions are cut at the same places:
a consumer then has the same partitions of each, and can join them without asking anybody.

A consumer that is named twice gets two runs and keeps the second, so the results are about
consumers of different names.

## Scope

The report on how unevenly the partitions of all topics are spread is left out.

## Main definitions

* `rangeAssign`
* `MultiTopicAssignment`, with `assign` and `coPartitioned`
* `runStart`: where the runs begin

## Main results

* `rangeAssign_answers`: the runs in order are all partitions, how long each of them is, and that
  the gate for assignments lets them through
* `MultiTopicAssignment.coPartitioned_iff`: all consumers have the same partitions of two topics if
  these have equally many, and only then
-/

namespace Relay

/-- The loop of `range_assign` over the sorted consumers. -/
def rangeLoop (per extra : ℤ) : ℤ → ℤ → List String → Dict String (List ℤ) → Dict String (List ℤ)
  | _, _, [], result => result
  | index, offset, consumer :: rest, result =>
    let count := per + if index < extra then 1 else 0
    rangeLoop per extra (index + 1) (offset + count) rest
      (result.set consumer (Int.range offset (offset + count)))

/-- `range_assign`. -/
def rangeAssign (partitions : ℤ) (consumers : List String) :
    Except RelayError (Dict String (List ℤ)) :=
  if consumers = [] then .error (.invalid "no consumers to assign to")
  else
    let consumers := consumers.mergeSort fun c c' => c ≤ c'
    .ok (rangeLoop (partitions / consumers.length) (partitions % consumers.length) 0 0 consumers
      (Dict.ofList (consumers.map fun c => (c, []))))

/-- Topics with their numbers of partitions, and the consumers that share them. -/
structure MultiTopicAssignment where
  topicPartitions : Dict String ℤ
  consumers : List String

namespace MultiTopicAssignment

/-- The loop of `assign` over the consumers of one topic. -/
def assignTopic (topic : String) (result : Dict String (Dict String (List ℤ)))
    (perTopic : List (String × List ℤ)) : Dict String (Dict String (List ℤ)) :=
  perTopic.foldl (fun result e => result.set e.1 ((result.getD e.1 ∅).set topic e.2)) result

/-- The loop of `assign` over the topics. -/
def assignTopics (consumers : List String) :
    List (String × ℤ) → Dict String (Dict String (List ℤ)) →
      Except RelayError (Dict String (Dict String (List ℤ)))
  | [], result => .ok result
  | (topic, count) :: rest, result =>
    match rangeAssign count consumers with
    | .error error => .error error
    | .ok perTopic => assignTopics consumers rest (assignTopic topic result perTopic.entries)

/-- `assign`. -/
def assign (group : MultiTopicAssignment) :
    Except RelayError (Dict String (Dict String (List ℤ))) :=
  assignTopics group.consumers group.topicPartitions.entries
    (Dict.ofList ((group.consumers.mergeSort fun c c' => c ≤ c').map fun c => (c, ∅)))

/-- `co_partitioned`. There is no answer for a consumer that is not one of them. -/
def coPartitioned (group : MultiTopicAssignment) (consumer topicA topicB : String) :
    Except RelayError (Option Bool) :=
  group.assign.map fun assignment => (assignment.get? consumer).map fun topics =>
    topics.get? topicA = topics.get? topicB

end MultiTopicAssignment

/-! ## The cuts -/

/-- The partition that the run of a consumer begins with. -/
def runStart (per extra : ℤ) (k : ℕ) : ℤ := k * per + min (k : ℤ) extra

section Cuts

variable {per extra : ℤ} {k : ℕ}

theorem runStart_succ (per extra : ℤ) (k : ℕ) :
    runStart per extra (k + 1) =
      runStart per extra k + (per + if (k : ℤ) < extra then 1 else 0) := by
  rw [runStart, runStart]
  push_cast
  split
  · next hlt => rw [min_eq_left (by omega), min_eq_left hlt.le]; ring
  · next hge => rw [min_eq_right (by omega), min_eq_right (not_lt.mp hge)]; ring

/-- Who is not among the consumers left keeps what is there. -/
theorem get?_rangeLoop_of_not_mem {consumers : List String} {c : String} (hc : c ∉ consumers)
    (index offset : ℤ) (result : Dict String (List ℤ)) :
    (rangeLoop per extra index offset consumers result).get? c = result.get? c := by
  induction consumers generalizing index offset result with
  | nil => rfl
  | cons c' rest ih =>
    obtain ⟨hne, hrest⟩ := List.ne_and_not_mem_of_not_mem_cons hc
    rw [rangeLoop, ih hrest, Dict.get?_set_of_ne _ _ hne]

/-- The consumers get the runs between the cuts, in order. -/
theorem get?_rangeLoop (per extra : ℤ) {consumers : List String} (hnodup : consumers.Nodup) (k : ℕ)
    (result : Dict String (List ℤ)) {j : ℕ} {c : String} (hc : consumers[j]? = some c) :
    (rangeLoop per extra k (runStart per extra k) consumers result).get? c =
      some (Int.range (runStart per extra (k + j)) (runStart per extra (k + j + 1))) := by
  induction consumers generalizing k result j with
  | nil => cases hc
  | cons c' rest ih =>
    obtain ⟨hout, hnodup⟩ := List.nodup_cons.mp hnodup
    rw [rangeLoop, ← runStart_succ]
    cases j with
    | zero =>
      obtain rfl := Option.some.inj hc
      rw [get?_rangeLoop_of_not_mem hout, Dict.get?_set_self]
      rfl
    | succ j =>
      have hnext := ih hnodup (k + 1) (result.set c' (Int.range (runStart per extra k)
        (runStart per extra (k + 1)))) hc
      rw [Nat.add_right_comm, Nat.add_assoc] at hnext
      exact_mod_cast hnext

theorem range_append {a b c : ℤ} (hab : a ≤ b) (hbc : b ≤ c) :
    Int.range a b ++ Int.range b c = Int.range a c := by
  obtain ⟨m, rfl⟩ := Int.le.dest hab
  obtain ⟨n, rfl⟩ := Int.le.dest hbc
  rw [Int.range, Int.range, Int.range, show (a + m - a).toNat = m by omega,
    show (a + m + n - (a + m)).toNat = n by omega, show (a + m + n - a).toNat = m + n by omega,
    List.range_add, List.map_append, List.map_map]
  refine congrArg _ (List.map_congr_left fun k _ => ?_)
  rw [Function.comp_apply, Nat.cast_add, add_assoc]

/-- One after the other, the runs leave nothing out. -/
theorem flatMap_rangeLoop (hper : 0 ≤ per) {consumers : List String} (hnodup : consumers.Nodup)
    (k : ℕ) (result : Dict String (List ℤ)) :
    (consumers.flatMap fun c =>
        (rangeLoop per extra k (runStart per extra k) consumers result).getD c []) =
      Int.range (runStart per extra k) (runStart per extra (k + consumers.length)) := by
  have hmono : ∀ k, runStart per extra k ≤ runStart per extra (k + 1) := fun k => by
    rw [runStart_succ]
    split <;> omega
  have hle : ∀ k n, runStart per extra k ≤ runStart per extra (k + n) := fun k n => by
    induction n with
    | zero => exact le_rfl
    | succ n ih => exact ih.trans (hmono (k + n))
  induction consumers generalizing k result with
  | nil =>
    rw [List.length_nil, Nat.add_zero, Int.range, Int.sub_self]
    rfl
  | cons c rest ih =>
    have hfirst := get?_rangeLoop per extra hnodup k result
      (j := 0) (c := c) rfl
    obtain ⟨-, hnodup⟩ := List.nodup_cons.mp hnodup
    rw [List.flatMap_cons, Dict.getD, hfirst, rangeLoop, ← runStart_succ]
    have hrest := ih hnodup (k + 1) (result.set c (Int.range (runStart per extra k)
      (runStart per extra (k + 1))))
    rw [Nat.cast_add, Nat.cast_one] at hrest
    rw [hrest, List.length_cons, Nat.add_right_comm k 1, ← Nat.add_assoc]
    exact range_append (hmono k) (Nat.add_right_comm k 1 _ ▸ hle (k + 1) rest.length)

end Cuts

/-! ## The assignment -/

/-- How many partitions the `k`-th of `n` consumers gets. -/
def shareLength (partitions : ℤ) (n k : ℕ) : ℕ :=
  partitions.toNat / n + if k < partitions.toNat % n then 1 else 0

theorem toNat_runStart_sub (partitions : ℤ) {n k : ℕ} (hk : k < n) :
    (runStart (partitions / n) (partitions % n) (k + 1) -
      runStart (partitions / n) (partitions % n) k).toNat = shareLength partitions n k := by
  rw [runStart_succ, add_sub_cancel_left, shareLength]
  rcases Int.lt_or_le partitions 0 with hneg | hpos
  · have hdiv : partitions / (n : ℤ) < 0 := Int.ediv_neg_of_neg_of_pos hneg (by omega)
    rw [Int.toNat_of_nonpos hneg.le, Nat.zero_div, Nat.zero_mod]
    simp only [Nat.not_lt_zero, if_false]
    split <;> omega
  · obtain ⟨p, rfl⟩ := Int.eq_ofNat_of_zero_le hpos
    rw [Int.toNat_natCast]
    norm_cast

theorem length_range (a b : ℤ) : (Int.range a b).length = (b - a).toNat := by
  rw [Int.range, List.length_map, List.length_range]

theorem runStart_zero {per extra : ℤ} (hextra : 0 ≤ extra) : runStart per extra 0 = 0 := by
  rw [runStart, Nat.cast_zero, Int.zero_mul, min_eq_left hextra, Int.zero_add]

theorem runStart_length (partitions : ℤ) {n : ℕ} (hn : 0 < n) :
    runStart (partitions / n) (partitions % n) n = partitions := by
  have hpos : (0 : ℤ) < n := Int.natCast_pos.mpr hn
  rw [runStart, min_eq_right (Int.emod_lt_of_pos _ hpos).le, Int.mul_ediv_add_emod]

section Assign

variable {partitions : ℤ} {consumers : List String}

theorem rangeAssign_eq (hne : consumers ≠ []) :
    rangeAssign partitions consumers = .ok (rangeLoop (partitions / consumers.length)
      (partitions % consumers.length) (0 : ℕ)
      (runStart (partitions / consumers.length) (partitions % consumers.length) 0)
      (consumers.mergeSort fun c c' => c ≤ c')
      (Dict.ofList ((consumers.mergeSort fun c c' => c ≤ c').map fun c => (c, [])))) := by
  have hextra : 0 ≤ partitions % (consumers.length : ℤ) :=
    Int.emod_nonneg _ (by simpa using hne)
  rw [rangeAssign, if_neg hne, runStart_zero hextra]
  dsimp only
  rw [List.length_mergeSort]
  rfl

/-- The runs of the consumers, sorted by name, are one after the other all partitions of the topic,
and the partitions left over go one each to the first of them. -/
theorem rangeAssign_spec (partitions : ℤ) {consumers : List String} (hne : consumers ≠ [])
    (hnodup : consumers.Nodup) :
    ∃ assignment, rangeAssign partitions consumers = .ok assignment ∧
      ((consumers.mergeSort fun c c' => c ≤ c').flatMap fun c => assignment.getD c []) =
        Int.range 0 partitions ∧
      (∀ k c, (consumers.mergeSort fun c c' => c ≤ c')[k]? = some c →
        (assignment.getD c []).length = shareLength partitions consumers.length k) ∧
      ∀ c, c ∈ assignment.keys ↔ c ∈ consumers := by
  have hperm := List.mergeSort_perm consumers fun c c' => c ≤ c'
  have hsorted := hperm.nodup_iff.mpr hnodup
  have hpos : 0 < consumers.length := List.length_pos_iff.mpr hne
  have hextra : 0 ≤ partitions % (consumers.length : ℤ) :=
    Int.emod_nonneg _ (by simpa using hne)
  have hlength : ∀ k c, (consumers.mergeSort fun c c' => c ≤ c')[k]? = some c →
      ((rangeLoop (partitions / consumers.length) (partitions % consumers.length) (0 : ℕ)
        (runStart (partitions / consumers.length) (partitions % consumers.length) 0)
        (consumers.mergeSort fun c c' => c ≤ c')
        (Dict.ofList ((consumers.mergeSort fun c c' => c ≤ c').map fun c => (c, [])))).getD c
          []).length = shareLength partitions consumers.length k := fun k c hc => by
    have hk : k < consumers.length := by
      obtain ⟨hk, -⟩ := List.getElem?_eq_some_iff.mp hc
      rwa [hperm.length_eq] at hk
    rw [Dict.getD, get?_rangeLoop _ _ hsorted 0 _ hc, Option.getD_some, length_range, Nat.zero_add,
      toNat_runStart_sub partitions hk]
  refine ⟨_, rangeAssign_eq hne, ?_, hlength, fun c => ?_⟩
  · rcases Int.lt_or_le partitions 0 with hneg | hnonneg
    · -- all runs are empty
      rw [show Int.range 0 partitions = [] from List.length_eq_zero_iff.mp (by
        rw [length_range]; omega)]
      refine List.flatMap_eq_nil_iff.mpr fun c hc => List.length_eq_zero_iff.mp ?_
      obtain ⟨k, hk⟩ := List.getElem?_of_mem hc
      rw [hlength k c hk, shareLength, Int.toNat_of_nonpos hneg.le, Nat.zero_div, Nat.zero_mod,
        if_neg (Nat.not_lt_zero k)]
    · rw [flatMap_rangeLoop (Int.ediv_nonneg hnonneg (Int.natCast_nonneg _)) hsorted,
        runStart_zero hextra, hperm.length_eq, Nat.zero_add, runStart_length partitions hpos]
  · rw [Dict.mem_keys_iff, ← hperm.mem_iff]
    by_cases hc : c ∈ consumers.mergeSort fun c c' => c ≤ c'
    · obtain ⟨k, hk⟩ := List.getElem?_of_mem hc
      exact iff_of_true ⟨_, get?_rangeLoop _ _ hsorted 0 _ hk⟩ hc
    · rw [get?_rangeLoop_of_not_mem hc, Dict.ofList, Dict.get?_assign_map, if_neg hc]
      refine iff_of_false ?_ hc
      rintro ⟨_, hnone⟩
      cases hnone

/-- **All partitions, in order, in runs of equal length.** The runs of the consumers, sorted by
name, are one after the other all partitions of the topic, and the partitions left over go one each
to the first of them. The gate lets every such assignment through. -/
theorem rangeAssign_answers (partitions : ℤ) {consumers : List String} (hne : consumers ≠ [])
    (hnodup : consumers.Nodup) :
    ∃ assignment, rangeAssign partitions consumers = .ok assignment ∧
      ((consumers.mergeSort fun c c' => c ≤ c').flatMap fun c => assignment.getD c []) =
        Int.range 0 partitions ∧
      (∀ k c, (consumers.mergeSort fun c c' => c ≤ c')[k]? = some c →
        (assignment.getD c []).length = shareLength partitions consumers.length k) ∧
      ∃ report, AssignmentValidator.validate ⟨(Int.range 0 partitions).toFinset⟩
        (assignment.mapValues fun _ parts => parts.toFinset) = .ok report := by
  obtain ⟨assignment, hok, hall, hlength, hkeys⟩ := rangeAssign_spec partitions hne hnodup
  refine ⟨assignment, hok, hall, hlength,
    AssignmentValidator.validate_eq_ok_iff.mpr ⟨fun p hp => ?_, ?_⟩⟩
  · rw [List.mem_toFinset, ← hall, List.mem_flatMap] at hp
    obtain ⟨m, -, hm⟩ := hp
    exact ⟨m, owns_mapValues_iff.mpr hm⟩
  · intro p m m' hm hm'
    rw [owns_mapValues_iff] at hm hm'
    have hmember : ∀ c, p ∈ assignment.getD c [] → c ∈ consumers.mergeSort fun c c' => c ≤ c' :=
      fun c hc => by
        rw [List.mem_mergeSort, ← hkeys]
        by_contra hnot
        rw [Dict.getD_of_not_mem_keys hnot] at hc
        cases hc
    have hflat : ((consumers.mergeSort fun c c' => c ≤ c').flatMap fun c =>
        assignment.getD c []).Nodup := by
      rw [hall, Int.range]
      exact List.nodup_range.map fun a b hab => by simpa using hab
    have hpairwise := (List.nodup_flatMap.mp hflat).2
    by_contra hne
    have : Std.Symm (Function.onFun List.Disjoint fun c => assignment.getD c []) :=
      ⟨fun _ _ hdisjoint => hdisjoint.symm⟩
    exact hpairwise.forall (hmember m hm) (hmember m' hm') hne hm hm'

theorem rangeAssign_answers_two :
    ∃ assignment, rangeAssign 3 ["b", "a"] = .ok assignment ∧
      ((["b", "a"].mergeSort fun c c' => c ≤ c').flatMap fun c => assignment.getD c []) =
        Int.range 0 3 ∧
      (∀ k c, (["b", "a"].mergeSort fun c c' => c ≤ c')[k]? = some c →
        (assignment.getD c []).length = shareLength 3 ["b", "a"].length k) ∧
      ∃ report, AssignmentValidator.validate ⟨(Int.range 0 3).toFinset⟩
        (assignment.mapValues fun _ parts => parts.toFinset) = .ok report :=
  rangeAssign_answers 3 (by decide) (by decide)

end Assign

/-! ## Several topics -/

namespace MultiTopicAssignment

variable {topic : String} {c : String}

/-- One topic more, for one consumer of it. -/
theorem get?_assignTopic {perTopic : List (String × List ℤ)}
    (hnodup : (perTopic.map Prod.fst).Nodup) (result : Dict String (Dict String (List ℤ))) :
    (assignTopic topic result perTopic).get? c =
      match perTopic.lookup c with
      | some parts => some ((result.getD c ∅).set topic parts)
      | none => result.get? c := by
  induction perTopic generalizing result with
  | nil => rfl
  | cons e perTopic ih =>
    obtain ⟨hout, hnodup⟩ := List.nodup_cons.mp hnodup
    rw [assignTopic, List.foldl_cons, ← assignTopic, ih hnodup]
    obtain ⟨c', parts⟩ := e
    rw [Dict.lookup_cons_ite]
    by_cases hc : c = c'
    · subst hc
      rw [Dict.lookup_eq_none_iff_not_mem.mpr hout, if_pos rfl, Dict.get?_set_self]
    · rw [if_neg hc, Dict.getD, Dict.get?_set_of_ne _ _ hc, ← Dict.getD]

/-- A consumer's runs of the topics that were gone through, under their names. -/
theorem get?_assignTopics {consumers : List String} {share : ℤ → List ℤ}
    (hshare : ∀ count, ∃ assignment, rangeAssign count consumers = .ok assignment ∧
      assignment.get? c = some (share count))
    (topics : List (String × ℤ)) {result : Dict String (Dict String (List ℤ))}
    {mine : Dict String (List ℤ)} (hmine : result.get? c = some mine) :
    ∃ assignment, assignTopics consumers topics result = .ok assignment ∧
      assignment.get? c = some (mine.assign (topics.map fun e => (e.1, share e.2))) := by
  induction topics generalizing result mine with
  | nil => exact ⟨result, rfl, hmine⟩
  | cons e topics ih =>
    obtain ⟨topic, count⟩ := e
    obtain ⟨perTopic, hok, hparts⟩ := hshare count
    have hnext : (assignTopic topic result perTopic.entries).get? c =
        some (mine.set topic (share count)) := by
      rw [get?_assignTopic perTopic.nodup,
        show perTopic.entries.lookup c = some (share count) from hparts, Dict.getD, hmine]
      rfl
    rw [assignTopics, hok]
    exact ih hnext

/-- What a consumer has of the topics there are, under their names. -/
theorem get?_assign {group : MultiTopicAssignment} {share : ℤ → List ℤ}
    (hc : c ∈ group.consumers)
    (hshare : ∀ count, ∃ assignment, rangeAssign count group.consumers = .ok assignment ∧
      assignment.get? c = some (share count)) :
    ∃ assignment mine, group.assign = .ok assignment ∧ assignment.get? c = some mine ∧
      ∀ topic count, group.topicPartitions.get? topic = some count →
        mine.get? topic = some (share count) := by
  have hstart : (Dict.ofList ((group.consumers.mergeSort fun c c' => c ≤ c').map fun c =>
      (c, (∅ : Dict String (List ℤ))))).get? c = some ∅ := by
    rw [Dict.ofList, Dict.get?_assign_map, if_pos ((List.mergeSort_perm _ _).mem_iff.mpr hc)]
  obtain ⟨assignment, hok, hget⟩ := get?_assignTopics hshare
    group.topicPartitions.entries hstart
  refine ⟨assignment, _, hok, hget, fun topic count hcount => ?_⟩
  refine (Dict.get?_ofList_eq_some_iff ?_).mpr
    (List.mem_map.mpr ⟨(topic, count), group.topicPartitions.mem_entries_iff.mpr hcount, rfl⟩)
  rw [List.map_map]
  exact group.topicPartitions.nodup

/-- **Co-partitioned topics.** All consumers have the same partitions of two topics exactly if the
topics have equally many of them. -/
theorem coPartitioned_iff {group : MultiTopicAssignment} (hne : group.consumers ≠ [])
    (hnodup : group.consumers.Nodup) {topicA topicB : String} {m n : ℤ}
    (hA : group.topicPartitions.get? topicA = some m)
    (hB : group.topicPartitions.get? topicB = some n) :
    (∀ c ∈ group.consumers, group.coPartitioned c topicA topicB = .ok (some true)) ↔
      m.toNat = n.toNat := by
  choose assignment hok hall _ hkeys using fun count => rangeAssign_spec count hne hnodup
  have hanswer : ∀ c ∈ group.consumers, group.coPartitioned c topicA topicB =
      .ok (some (decide ((assignment m).getD c [] = (assignment n).getD c []))) := fun c hc => by
    obtain ⟨answer, mine, hassign, hmine, hget⟩ := get?_assign hc fun count => by
      obtain ⟨parts, hparts⟩ := (assignment count).mem_keys_iff.mp ((hkeys count c).mpr hc)
      exact ⟨assignment count, hok count,
        show _ = some ((assignment count).getD c []) by rw [Dict.getD, hparts]; rfl⟩
    rw [coPartitioned, hassign, Except.map, hmine, Option.map_some, hget topicA m hA,
      hget topicB n hB]
    simp
  have hmem : ∀ c, c ∈ (group.consumers.mergeSort fun c c' => c ≤ c') ↔ c ∈ group.consumers :=
    fun c => (List.mergeSort_perm _ _).mem_iff
  constructor
  · intro h
    have heq : Int.range 0 m = Int.range 0 n := by
      rw [← hall m, ← hall n]
      refine List.flatMap_congr fun c hc => ?_
      have htrue := h c ((hmem c).mp hc)
      rw [hanswer c ((hmem c).mp hc)] at htrue
      exact of_decide_eq_true (Option.some.inj (Except.ok.inj htrue))
    simpa [length_range] using congrArg List.length heq
  · intro h c hc
    rw [hanswer c hc, decide_eq_true]
    by_cases hmn : m = n
    · rw [hmn]
    · -- there are no partitions of either
      have hempty : ∀ count : ℤ, count.toNat = 0 → (assignment count).getD c [] = [] :=
        fun count hcount => by
          have hnil : Int.range 0 count = [] :=
            List.length_eq_zero_iff.mp (by rw [length_range, sub_zero, hcount])
          rw [← hall count, List.flatMap_eq_nil_iff] at hnil
          exact hnil c ((hmem c).mpr hc)
      rw [hempty m (by omega), hempty n (by omega)]

/-- Orders and payments, with three partitions each, for two consumers. -/
def ordersAndPayments : MultiTopicAssignment where
  topicPartitions := Dict.ofList [("orders", 3), ("payments", 3)]
  consumers := ["b", "a"]

theorem coPartitioned_iff_orders :
    (∀ c ∈ ordersAndPayments.consumers,
        ordersAndPayments.coPartitioned c "orders" "payments" = .ok (some true)) ↔
      (3 : ℤ).toNat = (3 : ℤ).toNat :=
  coPartitioned_iff (by decide) (by decide) (by decide) (by decide)

end MultiTopicAssignment

end Relay
