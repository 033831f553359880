import Mathlib.Data.String.Basic
import Relay.Errors
import Relay.Lib.Dict
import Relay.Lib.Shares

/-!
# Rebalancing a group

When the members of a group change, its partitions are shared out anew. Members first keep what they
had, up to a target; then what is left goes, partition by partition, to the member that is furthest
behind its target. The targets differ by at most one, and it is the first members in order that are
given the one more.

Everything about the outcome is in what is left after keeping. A member that lost some of it was at
its target, with nothing but what it had before, so the fill passes it over: nothing comes back to a
member that had it, everything the fill places has moved, and no member takes over one partition
while it gives up another. So only what the targets ask for changes hands, and whether that is as
little as can be is up to the targets. They do not look at who had what: one more for a member that
had few can cost a partition that one more for a member that had many would have saved.

## Scope

The test whether an assignment is balanced is left out, and so is the count of the moves that a
naive assignment makes. The source compares with these; the assignor does not use them.

## Main definitions

* `Assignment`, `stickyAssign`
* `Keeping`, `Filling`: what holds while members keep, and while the rest is placed

## Main results

* `stickyAssign_spec`: the assignment that comes out is filled, with the first members' targets
* `stickyAssign_shares_out`: every partition has one owner, loads are even, and moves are counted
* `stickyAssign_relocates_least_iff`: exactly when no even assignment relocates fewer partitions
-/

namespace Relay

namespace Rebalance

/-- `_balanced_counts`. -/
def balancedCounts (partitions members : ℕ) : List ℕ :=
  let base := partitions / members
  let extra := partitions % members
  (List.range members).map fun index => base + if index < extra then 1 else 0

/-- The partitions of every member. -/
structure Assignment where
  byMember : Dict String (List ℤ)
deriving DecidableEq

namespace Assignment

/-- `by_member.get(member, [])`. -/
def parts (a : Assignment) (member : String) : List ℤ := a.byMember.getD member []

/-- `owner_of`. -/
def ownerOf (a : Assignment) (partition : ℤ) : Option String :=
  (a.byMember.entries.find? fun e => partition ∈ e.2).map Prod.fst

end Assignment

/-- What the loops build: `result`, by member. -/
abbrev Result := Dict String (List ℤ)

/-- `result[member].append(part)`. -/
def give (result : Result) (member : String) (part : ℤ) : Result :=
  result.set member (result.getD member [] ++ [part])

/-- The body of the loops that keep: a member stays on a partition that is still unassigned, up to
its target. -/
def keepPart (target : String → ℕ) (s : Result × List ℤ) (member : String) (part : ℤ) :
    Result × List ℤ :=
  if part ∈ s.2 ∧ (s.1.getD member []).length < target member then
    (give s.1 member part, s.2.erase part)
  else s

/-- The loops that keep. -/
def keep (target : String → ℕ) (members : List String) (previous : Option Assignment)
    (s : Result × List ℤ) : Result × List ℤ :=
  match previous with
  | none => s
  | some previous =>
    members.foldl (fun s member =>
      (previous.parts member).foldl (fun s part => keepPart target s member part) s) s

/-- How a member stands to its target: below zero if it is behind. -/
def standing (target : String → ℕ) (result : Result) (m : String) : ℤ :=
  (result.getD m []).length - target m

/-- The order of the pairs that `min` compares. -/
def Precedes (target : String → ℕ) (result : Result) (m m' : String) : Prop :=
  standing target result m < standing target result m' ∨
    standing target result m = standing target result m' ∧ m < m'

instance (target : String → ℕ) (result : Result) : DecidableRel (Precedes target result) :=
  fun _ _ => inferInstanceAs (Decidable (_ ∨ _))

/-- The member that is furthest behind its target, and of several the first in order. -/
def mostBehind (target : String → ℕ) (result : Result) : List String → Option String
  | [] => none
  | m :: members =>
    some (members.foldl (fun best m => if Precedes target result m best then m else best) m)

/-- The body of the loop that fills. -/
def fillPart (target : String → ℕ) (members : List String) (previous : Option Assignment)
    (s : Result × ℕ) (part : ℤ) : Result × ℕ :=
  match mostBehind target s.1 members with
  | none => s -- nobody to choose from
  | some targetMember =>
    let keptOwner := previous.bind fun previous => previous.ownerOf part
    let relocated := keptOwner ≠ none ∧ keptOwner ≠ some targetMember
    let newlyPlaced := keptOwner = none ∧ previous.isSome
    (give s.1 targetMember part, if relocated ∨ newlyPlaced then s.2 + 1 else s.2)

/-- Keep, then fill: what every member gets, and how many partitions moved. -/
def place (target : String → ℕ) (members : List String) (previous : Option Assignment)
    (partitions : List ℤ) : Result × ℕ :=
  let kept := keep target members previous (Dict.ofList (members.map fun m => (m, [])), partitions)
  (kept.2.mergeSort fun p q => p ≤ q).foldl (fillPart target members previous) (kept.1, 0)

/-- Every member's partitions sorted. -/
def sortParts (result : Result) : Result :=
  result.mapValues fun _ parts => parts.mergeSort fun p q => p ≤ q

/-- `sticky_assign`. -/
def stickyAssign (partitions : List ℤ) (members : List String) (previous : Option Assignment) :
    Except RelayError (Assignment × ℕ) :=
  if members = [] then .error (.invalid "a group with no members owns no partitions")
  else
    let sorted := members.mergeSort fun m m' => m ≤ m'
    let targets := Dict.ofList (sorted.zip (balancedCounts partitions.length sorted.length))
    let placed := place (fun m => targets.getD m 0) sorted previous partitions
    .ok (⟨sortParts placed.1⟩, placed.2)

/-! ### Owners -/

namespace Assignment

/-- At most one member has the partition. -/
def OwnedOnce (a : Assignment) (p : ℤ) : Prop :=
  ∀ m m', p ∈ a.parts m → p ∈ a.parts m' → m = m'

variable {a : Assignment} {p : ℤ} {m : String}

theorem mem_parts_iff : p ∈ a.parts m ↔ ∃ parts, (m, parts) ∈ a.byMember.entries ∧ p ∈ parts := by
  simp only [Dict.mem_entries_iff]
  rw [parts, Dict.getD]
  cases a.byMember.get? m with
  | none => simp
  | some parts => simp

theorem ownedOnce_iff : a.OwnedOnce p ↔ ∀ e ∈ a.byMember.entries, ∀ e' ∈ a.byMember.entries,
    p ∈ e.2 → p ∈ e'.2 → e.1 = e'.1 := by
  constructor
  · intro h e he e' he' hp hp'
    exact h e.1 e'.1 (mem_parts_iff.mpr ⟨e.2, he, hp⟩) (mem_parts_iff.mpr ⟨e'.2, he', hp'⟩)
  · intro h m m' hm hm'
    obtain ⟨parts, hmem, hp⟩ := mem_parts_iff.mp hm
    obtain ⟨parts', hmem', hp'⟩ := mem_parts_iff.mp hm'
    exact h _ hmem _ hmem' hp hp'

instance (a : Assignment) (p : ℤ) : Decidable (a.OwnedOnce p) :=
  decidable_of_iff _ ownedOnce_iff.symm

theorem mem_parts_of_ownerOf (h : a.ownerOf p = some m) : p ∈ a.parts m := by
  obtain ⟨e, hfind, rfl⟩ := Option.map_eq_some_iff.mp h
  have hp := List.find?_some hfind
  exact mem_parts_iff.mpr ⟨e.2, List.mem_of_find?_eq_some hfind, of_decide_eq_true hp⟩

theorem ownerOf_ne_none (h : p ∈ a.parts m) : a.ownerOf p ≠ none := by
  obtain ⟨parts, hmem, hp⟩ := mem_parts_iff.mp h
  intro hnone
  rw [ownerOf, Option.map_eq_none_iff, List.find?_eq_none] at hnone
  exact hnone _ hmem (decide_eq_true hp)

/-- The owner of a partition that is owned once is the member that has it. -/
theorem OwnedOnce.ownerOf_eq_some_iff (h : a.OwnedOnce p) :
    a.ownerOf p = some m ↔ p ∈ a.parts m := by
  refine ⟨mem_parts_of_ownerOf, fun hp => ?_⟩
  obtain ⟨m', hm'⟩ := Option.ne_none_iff_exists'.mp (ownerOf_ne_none hp)
  rw [hm', h m' m (mem_parts_of_ownerOf hm') hp]

end Assignment

/-- What a member had before, if there was a before. -/
def previousParts (previous : Option Assignment) (m : String) : List ℤ :=
  previous.elim [] fun a => a.parts m

/-! ### Partitions shared out so far -/

/-- What a member has by now. -/
def partsOf (result : Result) (m : String) : List ℤ := result.getD m []

theorem partsOf_give (result : Result) (m : String) (p : ℤ) :
    partsOf (give result m p) = Function.update (partsOf result) m (partsOf result m ++ [p]) := by
  funext k
  rw [partsOf, give, Dict.getD_set, Function.update_apply]
  rfl

/-- Partitions are shared out among the members, up to their targets, and the rest is left. -/
structure Sharing (target : String → ℕ) (members : List String) (partitions : List ℤ)
    (parts : String → List ℤ) (rest : List ℤ) : Prop where
  perm : (members.flatMap parts ++ rest).Perm partitions
  le : ∀ m ∈ members, (parts m).length ≤ target m
  only : ∀ m, m ∉ members → parts m = []

section Sharing

variable {target : String → ℕ} {members : List String} {partitions : List ℤ}
  {parts parts' : String → List ℤ} {rest rest' : List ℤ} {m : String} {p : ℤ}

/-- One more for one member is one more for all of them. -/
theorem flatMap_update_perm (hnodup : members.Nodup) (hm : m ∈ members) :
    (members.flatMap (Function.update parts m (parts m ++ [p]))).Perm
      (p :: members.flatMap parts) := by
  induction members with
  | nil => cases hm
  | cons m' members ih =>
    obtain ⟨hout, hnodup'⟩ := List.nodup_cons.mp hnodup
    rw [List.flatMap_cons, List.flatMap_cons]
    by_cases heq : m' = m
    · subst heq
      have hsame : members.flatMap (Function.update parts m' (parts m' ++ [p])) =
          members.flatMap parts :=
        List.flatMap_congr fun k hk =>
          Function.update_of_ne (fun h : k = m' => hout (h ▸ hk)) _ _
      rw [hsame, Function.update_self, List.append_assoc]
      exact List.perm_middle
    · have hm' : m ∈ members := (List.mem_cons.mp hm).resolve_left fun h => heq h.symm
      rw [Function.update_of_ne heq]
      exact ((ih hnodup' hm').append_left _).trans List.perm_middle

theorem le_length_update (k : String) :
    (parts k).length ≤ (Function.update parts m (parts m ++ [p]) k).length := by
  rw [Function.update_apply]
  split
  · next h =>
    rw [h, List.length_append]
    exact Nat.le_add_right _ _
  · exact le_rfl

theorem mem_update_iff {k : String} {q : ℤ} :
    q ∈ Function.update parts m (parts m ++ [p]) k ↔ q ∈ parts k ∨ k = m ∧ q = p := by
  rw [Function.update_apply]
  split
  · next h => rw [h, List.mem_append, List.mem_singleton]; simp
  · next h => simp [h]

namespace Sharing

theorem give (h : Sharing target members partitions parts rest) (hnodup : members.Nodup)
    (hm : m ∈ members) (hp : p ∈ rest) (hroom : (parts m).length < target m) :
    Sharing target members partitions (Function.update parts m (parts m ++ [p]))
      (rest.erase p) where
  perm := by
    have hparts : (members.flatMap (Function.update parts m (parts m ++ [p])) ++ rest.erase p).Perm
        (p :: members.flatMap parts ++ rest.erase p) :=
      (flatMap_update_perm hnodup hm).append_right _
    have hrest := (List.perm_cons_erase hp).symm.append_left (members.flatMap parts)
    exact (hparts.trans (List.perm_middle.symm.trans hrest)).trans h.perm
  le k hk := by
    rw [Function.update_apply]
    split
    · next hkm =>
      rw [hkm, List.length_append]
      exact hroom
    · exact h.le k hk
  only k hk := by
    rw [Function.update_of_ne fun hkm : k = m => hk (hkm ▸ hm)]
    exact h.only k hk

theorem of_perm (h : Sharing target members partitions parts rest)
    (hparts : ∀ m, (parts' m).Perm (parts m)) (hrest : rest'.Perm rest) :
    Sharing target members partitions parts' rest' where
  perm := ((List.Perm.flatMap_left members fun m _ => hparts m).append hrest).trans h.perm
  le m hm := (hparts m).length_eq ▸ h.le m hm
  only m hm := (h.only m hm ▸ hparts m).eq_nil

theorem of_perm_members {members' : List String}
    (h : Sharing target members' partitions parts rest) (hmembers : members'.Perm members) :
    Sharing target members partitions parts rest where
  perm := ((hmembers.symm.flatMap_right parts).append_right rest).trans h.perm
  le m hm := h.le m (hmembers.mem_iff.mpr hm)
  only m hm := h.only m fun hm' => hm (hmembers.mem_iff.mp hm')

theorem mem_members (h : Sharing target members partitions parts rest) (hp : p ∈ parts m) :
    m ∈ members := by
  by_contra hm
  rw [h.only m hm] at hp
  cases hp

theorem mem_flatMap (h : Sharing target members partitions parts rest) (hp : p ∈ parts m) :
    p ∈ members.flatMap parts :=
  List.mem_flatMap.mpr ⟨m, h.mem_members hp, hp⟩

theorem mem_partitions (h : Sharing target members partitions parts rest) (hp : p ∈ parts m) :
    p ∈ partitions :=
  h.perm.subset (List.mem_append_left rest (h.mem_flatMap hp))

theorem sum_length_add (h : Sharing target members partitions parts rest) :
    (members.map fun m => (parts m).length).sum + rest.length = partitions.length := by
  rw [← h.perm.length_eq, List.length_append, List.length_flatMap]

/-- As long as something is left, somebody has room for it. -/
theorem exists_room (h : Sharing target members partitions parts rest)
    (hsum : (members.map target).sum = partitions.length) (hrest : rest ≠ []) :
    ∃ m ∈ members, (parts m).length < target m := by
  refine List.exists_lt_of_sum_lt (fun m => (parts m).length) target ?_
  have hlength := h.sum_length_add
  have hpos := List.length_pos_iff.mpr hrest
  omega

/-- **Nothing left, targets met.** -/
theorem length_eq (h : Sharing target members partitions parts [])
    (hsum : (members.map target).sum = partitions.length) (hm : m ∈ members) :
    (parts m).length = target m := by
  refine (h.le m hm).antisymm (not_lt.mp fun hlt => ?_)
  have htotal : (members.map fun m => (parts m).length).sum < (members.map target).sum :=
    List.sum_lt_sum _ _ h.le ⟨m, hm, hlt⟩
  have hlength := h.sum_length_add
  rw [List.length_nil] at hlength
  omega

theorem nodup_append (h : Sharing target members partitions parts rest)
    (hnodup : partitions.Nodup) : (members.flatMap parts ++ rest).Nodup :=
  h.perm.nodup_iff.mpr hnodup

/-- No two members have a partition. -/
theorem eq_of_mem (h : Sharing target members partitions parts rest) (hnodup : partitions.Nodup)
    {m' : String} (hp : p ∈ parts m) (hp' : p ∈ parts m') : m = m' := by
  by_contra hne
  have hpairwise := (List.nodup_flatMap.mp (List.nodup_append.mp (h.nodup_append hnodup)).1).2
  have : Std.Symm (Function.onFun List.Disjoint parts) := ⟨fun _ _ hdisjoint => hdisjoint.symm⟩
  exact hpairwise.forall (h.mem_members hp) (h.mem_members hp') hne hp hp'

theorem nodup_parts (h : Sharing target members partitions parts rest) (hnodup : partitions.Nodup)
    (m : String) : (parts m).Nodup := by
  by_cases hm : m ∈ members
  · exact (List.nodup_flatMap.mp (List.nodup_append.mp (h.nodup_append hnodup)).1).1 m hm
  · rw [h.only m hm]
    exact List.nodup_nil

/-- Nothing left, everybody's partition is with somebody. -/
theorem exists_mem (h : Sharing target members partitions parts []) (hp : p ∈ partitions) :
    ∃ m ∈ members, p ∈ parts m := by
  have hmem := h.perm.mem_iff.mpr hp
  rw [List.append_nil] at hmem
  exact List.mem_flatMap.mp hmem

end Sharing

end Sharing

/-! ### The loops that keep -/

/-- What was kept so far was had before. What a member had before and is not assigned yet is beyond
its target, once its turn was over. -/
structure Keeping (previous : Option Assignment) (target : String → ℕ) (members : List String)
    (partitions : List ℤ) (done : List (String × ℤ)) (parts : String → List ℤ) (rest : List ℤ) :
    Prop where
  sharing : Sharing target members partitions parts rest
  owned : ∀ m, ∀ p ∈ parts m, p ∈ previousParts previous m
  full : ∀ e ∈ done, e.2 ∈ rest → target e.1 ≤ (parts e.1).length

/-- The turns of the loops that keep. -/
def turns (members : List String) (previous : Option Assignment) : List (String × ℤ) :=
  members.flatMap fun m => (previousParts previous m).map fun p => (m, p)

theorem mem_turns {members : List String} {previous : Option Assignment} {m : String} {p : ℤ} :
    (m, p) ∈ turns members previous ↔ m ∈ members ∧ p ∈ previousParts previous m := by
  simp [turns]

theorem keep_eq_foldl (target : String → ℕ) (members : List String) (previous : Option Assignment)
    (s : Result × List ℤ) :
    keep target members previous s =
      (turns members previous).foldl (fun s e => keepPart target s e.1 e.2) s := by
  rw [turns, List.foldl_flatMap]
  simp only [List.foldl_map]
  cases previous with
  | none =>
    exact (List.foldl_fixed' (fun _ => rfl) members).symm
  | some a => rfl

section Keep

variable {previous : Option Assignment} {target : String → ℕ} {members : List String}
  {partitions : List ℤ} {done todo : List (String × ℤ)} {s : Result × List ℤ}

/-- One turn of the first loop. -/
theorem Keeping.keepPart (h : Keeping previous target members partitions done (partsOf s.1) s.2)
    (hmembers : members.Nodup) (hpartitions : partitions.Nodup) {e : String × ℤ}
    (he : e ∈ turns members previous) :
    Keeping previous target members partitions (done ++ [e])
      (partsOf (keepPart target s e.1 e.2).1) (keepPart target s e.1 e.2).2 := by
  obtain ⟨m, p⟩ := e
  obtain ⟨hm, hp⟩ := mem_turns.mp he
  rw [Rebalance.keepPart]
  split
  · next hkeep =>
    rw [partsOf_give]
    refine ⟨h.sharing.give hmembers hm hkeep.1 hkeep.2, fun k q hq => ?_, fun e he hrest => ?_⟩
    · rcases mem_update_iff.mp hq with hq | ⟨rfl, rfl⟩
      · exact h.owned k q hq
      · exact hp
    · have hnodup := (List.nodup_append.mp (h.sharing.nodup_append hpartitions)).2.1
      obtain ⟨hne, hrest⟩ := hnodup.mem_erase_iff.mp hrest
      rcases List.mem_append.mp he with he | he
      · exact (h.full e he hrest).trans (le_length_update e.1)
      · obtain rfl := List.mem_singleton.mp he
        exact absurd rfl hne
  · next hkeep =>
    refine ⟨h.sharing, h.owned, fun e he hrest => ?_⟩
    rcases List.mem_append.mp he with he | he
    · exact h.full e he hrest
    · obtain rfl := List.mem_singleton.mp he
      exact not_lt.mp fun hroom => hkeep ⟨hrest, hroom⟩

theorem Keeping.foldl (h : Keeping previous target members partitions done (partsOf s.1) s.2)
    (hmembers : members.Nodup) (hpartitions : partitions.Nodup)
    (htodo : ∀ e ∈ todo, e ∈ turns members previous) :
    Keeping previous target members partitions (done ++ todo)
      (partsOf (todo.foldl (fun s e => Rebalance.keepPart target s e.1 e.2) s).1)
      (todo.foldl (fun s e => Rebalance.keepPart target s e.1 e.2) s).2 := by
  induction todo generalizing done s with
  | nil => rwa [List.append_nil]
  | cons e todo ih =>
    obtain ⟨he, htodo⟩ := List.forall_mem_cons.mp htodo
    have hrun := ih (h.keepPart hmembers hpartitions he) htodo
    rwa [List.append_assoc, List.singleton_append] at hrun

theorem partsOf_ofList_map_nil (members : List String) :
    partsOf (Dict.ofList (members.map fun m => (m, []))) = fun _ => [] := by
  funext m
  rw [partsOf, Dict.getD]
  cases hget : (Dict.ofList (members.map fun m => (m, ([] : List ℤ)))).get? m with
  | none => rfl
  | some parts =>
    obtain ⟨m', -, heq⟩ := List.mem_map.mp (Dict.mem_of_get?_ofList hget)
    exact (congrArg Prod.snd heq).symm

/-- **Kept.** Nobody has more than its target, or anything new; and who lost something has all it
may have. -/
theorem keeping_keep (previous : Option Assignment) (target : String → ℕ)
    (hmembers : members.Nodup) (hpartitions : partitions.Nodup) :
    Keeping previous target members partitions (turns members previous)
      (partsOf (keep target members previous
        (Dict.ofList (members.map fun m => (m, [])), partitions)).1)
      (keep target members previous
        (Dict.ofList (members.map fun m => (m, [])), partitions)).2 := by
  rw [keep_eq_foldl]
  have hstart : Keeping previous target members partitions []
      (partsOf (Dict.ofList (members.map fun m => (m, [])))) partitions := by
    rw [partsOf_ofList_map_nil]
    refine ⟨⟨?_, fun _ _ => Nat.zero_le _, fun _ _ => rfl⟩, fun _ _ hp => ?_, fun _ he => ?_⟩
    · rw [List.flatMap_eq_nil_iff.mpr fun _ _ => rfl, List.nil_append]
    · cases hp
    · cases he
  exact Keeping.foldl (s := (_, partitions)) hstart hmembers hpartitions fun _ he => he

end Keep

/-! ### The loop that fills -/

/-- Of what is left after keeping, `left`, there is still `rest` to place. A member that lost some
of it has all it may have, and nothing new. Members have something new where it was left. -/
structure Filling (previous : Option Assignment) (left : List ℤ) (target : String → ℕ)
    (members : List String) (partitions : List ℤ) (parts : String → List ℤ) (rest : List ℤ) :
    Prop where
  sharing : Sharing target members partitions parts rest
  full : ∀ m ∈ members, ∀ p ∈ left, p ∈ previousParts previous m → target m ≤ (parts m).length
  sticky : ∀ m ∈ members, ∀ p ∈ left, p ∈ previousParts previous m →
    ∀ q ∈ parts m, q ∈ previousParts previous m
  had_iff : ∀ m, ∀ p ∈ parts m, p ∈ previousParts previous m ↔ p ∉ left
  subset : rest ⊆ left

section Fill

variable {previous : Option Assignment} {left : List ℤ} {target : String → ℕ}
  {members : List String} {partitions rest : List ℤ} {parts : String → List ℤ} {s : Result × ℕ}
  {p : ℤ} {m : String}

theorem Keeping.filling (h : Keeping previous target members partitions (turns members previous)
    parts left) (hpartitions : partitions.Nodup) :
    Filling previous left target members partitions parts left where
  sharing := h.sharing
  full m hm p hleft hp := h.full (m, p) (mem_turns.mpr ⟨hm, hp⟩) hleft
  sticky m _ _ _ _ := h.owned m
  had_iff m p hp := by
    have hdisjoint := (List.nodup_append.mp (h.sharing.nodup_append hpartitions)).2.2
    exact ⟨fun _ hleft => hdisjoint p (h.sharing.mem_flatMap hp) p hleft rfl,
      fun _ => h.owned m p hp⟩
  subset := List.Subset.refl left

theorem Filling.of_perm (h : Filling previous left target members partitions parts rest)
    {parts' : String → List ℤ} {rest' : List ℤ} (hparts : ∀ m, (parts' m).Perm (parts m))
    (hrest : rest'.Perm rest) :
    Filling previous left target members partitions parts' rest' where
  sharing := h.sharing.of_perm hparts hrest
  full m hm p hleft hp := (hparts m).length_eq ▸ h.full m hm p hleft hp
  sticky m hm p hleft hp q hq := h.sticky m hm p hleft hp q ((hparts m).mem_iff.mp hq)
  had_iff m p hp := h.had_iff m p ((hparts m).mem_iff.mp hp)
  subset _ hp := h.subset (hrest.subset hp)

theorem Filling.of_perm_members {members' : List String}
    (h : Filling previous left target members' partitions parts rest)
    (hmembers : members'.Perm members) :
    Filling previous left target members partitions parts rest where
  sharing := h.sharing.of_perm_members hmembers
  full m hm := h.full m (hmembers.mem_iff.mpr hm)
  sticky m hm := h.sticky m (hmembers.mem_iff.mpr hm)
  had_iff := h.had_iff
  subset := h.subset

theorem foldl_precedes_spec (target : String → ℕ) (result : Result) (members : List String)
    (m : String) :
    let best := members.foldl (fun best m => if Precedes target result m best then m else best) m
    best ∈ m :: members ∧
      ∀ m' ∈ m :: members, standing target result best ≤ standing target result m' := by
  induction members generalizing m with
  | nil => exact ⟨List.mem_cons_self, fun m' hm' => by rw [List.mem_singleton.mp hm']; rfl⟩
  | cons m₁ members ih =>
    rw [List.foldl_cons]
    by_cases hprecedes : Precedes target result m₁ m
    · rw [if_pos hprecedes]
      obtain ⟨hmem, hle⟩ := ih m₁
      have hstanding : standing target result m₁ ≤ standing target result m :=
        hprecedes.elim le_of_lt fun h => h.1.le
      refine ⟨List.mem_cons_of_mem m hmem, List.forall_mem_cons.mpr ⟨?_, hle⟩⟩
      exact (hle m₁ List.mem_cons_self).trans hstanding
    · rw [if_neg hprecedes]
      obtain ⟨hmem, hle⟩ := ih m
      obtain ⟨hfirst, hrest⟩ := List.forall_mem_cons.mp hle
      have hstanding : standing target result m ≤ standing target result m₁ :=
        not_lt.mp fun hlt => hprecedes (Or.inl hlt)
      refine ⟨?_, List.forall_mem_cons.mpr ⟨hfirst, List.forall_mem_cons.mpr
        ⟨hfirst.trans hstanding, hrest⟩⟩⟩
      rcases List.mem_cons.mp hmem with hm | hm
      · exact List.mem_cons.mpr (Or.inl hm)
      · exact List.mem_cons_of_mem m (List.mem_cons_of_mem m₁ hm)

/-- Somebody with room is most behind. -/
theorem exists_mostBehind {result : Result}
    (h : ∃ m ∈ members, (partsOf result m).length < target m) :
    ∃ m ∈ members, mostBehind target result members = some m ∧
      (partsOf result m).length < target m := by
  obtain ⟨m', hm', hroom⟩ := h
  cases members with
  | nil => cases hm'
  | cons m members =>
    obtain ⟨hmem, hle⟩ := foldl_precedes_spec target result members m
    have hstanding := hle m' hm'
    refine ⟨_, hmem, rfl, ?_⟩
    simp only [standing, partsOf] at hstanding hroom ⊢
    omega

/-- A member that is not full takes nothing back: what it had is kept, or it lost nothing. -/
theorem Filling.not_mem_previousParts
    (h : Filling previous left target members partitions parts rest) (hm : m ∈ members)
    (hroom : (parts m).length < target m) (hp : p ∈ left) : p ∉ previousParts previous m :=
  fun hhad => absurd (h.full m hm p hp hhad) hroom.not_ge

theorem Filling.give (h : Filling previous left target members partitions parts (p :: rest))
    (hmembers : members.Nodup) (hm : m ∈ members) (hroom : (parts m).length < target m) :
    Filling previous left target members partitions
      (Function.update parts m (parts m ++ [p])) rest where
  sharing := by
    have hsharing := h.sharing.give hmembers hm List.mem_cons_self hroom
    rwa [List.erase_cons_head] at hsharing
  full k hk q hq hhad := (h.full k hk q hq hhad).trans (le_length_update k)
  sticky k hk q hq hhad q' hq' := by
    rcases mem_update_iff.mp hq' with hq' | ⟨rfl, rfl⟩
    · exact h.sticky k hk q hq hhad q' hq'
    · exact absurd hhad (h.not_mem_previousParts hm hroom hq)
  had_iff k q hq := by
    rcases mem_update_iff.mp hq with hq | ⟨rfl, rfl⟩
    · exact h.had_iff k q hq
    · have hleft := h.subset List.mem_cons_self
      exact iff_of_false (h.not_mem_previousParts hm hroom hleft) fun hout => hout hleft
  subset _ hq := h.subset (List.mem_cons_of_mem p hq)

/-- What is placed with a member that did not have it counts as moved, if there was a before. -/
theorem relocated_or_newlyPlaced_iff (hhad : p ∉ previousParts previous m) :
    ((previous.bind fun a => a.ownerOf p) ≠ none ∧ (previous.bind fun a => a.ownerOf p) ≠ some m ∨
      (previous.bind fun a => a.ownerOf p) = none ∧ previous.isSome) ↔ previous.isSome := by
  cases previous with
  | none => simp
  | some a =>
    have hne : a.ownerOf p ≠ some m := fun heq => hhad (Assignment.mem_parts_of_ownerOf heq)
    simp only [Option.bind_some, Option.isSome_some, and_true, iff_true]
    by_cases hnone : a.ownerOf p = none
    · exact Or.inr hnone
    · exact Or.inl ⟨hnone, hne⟩

/-- One turn of the second loop. -/
theorem Filling.fillPart
    (h : Filling previous left target members partitions (partsOf s.1) (p :: rest))
    (hmembers : members.Nodup) (hsum : (members.map target).sum = partitions.length) :
    Filling previous left target members partitions
        (partsOf (fillPart target members previous s p).1) rest ∧
      (Rebalance.fillPart target members previous s p).2 =
        s.2 + if previous.isSome then 1 else 0 := by
  obtain ⟨m, hm, hbehind, hroom⟩ :=
    exists_mostBehind (h.sharing.exists_room hsum (List.cons_ne_nil p rest))
  have hhad := h.not_mem_previousParts hm hroom (h.subset List.mem_cons_self)
  rw [Rebalance.fillPart, hbehind]
  simp only [relocated_or_newlyPlaced_iff hhad, partsOf_give]
  refine ⟨h.give hmembers hm hroom, ?_⟩
  split
  · rfl
  · rfl

theorem Filling.foldl
    (h : Filling previous left target members partitions (partsOf s.1) rest)
    (hmembers : members.Nodup) (hsum : (members.map target).sum = partitions.length) :
    Filling previous left target members partitions
        (partsOf (rest.foldl (Rebalance.fillPart target members previous) s).1) [] ∧
      (rest.foldl (Rebalance.fillPart target members previous) s).2 =
        s.2 + if previous.isSome then rest.length else 0 := by
  induction rest generalizing s with
  | nil => exact ⟨h, by split <;> rfl⟩
  | cons p rest ih =>
    obtain ⟨hfilling, hmoved⟩ := h.fillPart hmembers hsum
    obtain ⟨hrun, hcount⟩ := ih hfilling
    refine ⟨hrun, ?_⟩
    rw [List.foldl_cons, hcount, hmoved, List.length_cons]
    split
    · exact Nat.add_right_comm _ _ _
    · rfl

/-- **Placed.** If the targets add up, everything is placed, and what moved is what was left after
keeping. -/
theorem exists_filling_place (previous : Option Assignment) (hmembers : members.Nodup)
    (hpartitions : partitions.Nodup) (hsum : (members.map target).sum = partitions.length) :
    ∃ left, Filling previous left target members partitions
        (partsOf (place target members previous partitions).1) [] ∧ left.Nodup ∧
      left ⊆ partitions ∧
      (place target members previous partitions).2 =
        if previous.isSome then left.length else 0 := by
  have hkeeping := keeping_keep previous target hmembers hpartitions
  have hnodup := hkeeping.sharing.nodup_append hpartitions
  have hsorted := List.mergeSort_perm (keep target members previous
    (Dict.ofList (members.map fun m => (m, [])), partitions)).2 fun p q => p ≤ q
  have hstart := (hkeeping.filling hpartitions).of_perm (fun _ => List.Perm.refl _) hsorted
  obtain ⟨hfilling, hmoved⟩ := Filling.foldl (s := (_, 0)) hstart hmembers hsum
  refine ⟨_, hfilling, (List.nodup_append.mp hnodup).2.1,
    fun p hp => hkeeping.sharing.perm.subset (List.mem_append_right _ hp), ?_⟩
  rw [place, hmoved, Nat.zero_add, hsorted.length_eq]

end Fill

/-! ### Targets -/

/-- Everybody's part, and one more for some. -/
def evenTarget (partitions : List ℤ) (members : List String) (more : Finset String) (m : String) :
    ℕ :=
  partitions.length / members.length + if m ∈ more then 1 else 0

theorem sum_evenTarget {partitions : List ℤ} {members : List String} {more : Finset String}
    (hmembers : members.Nodup) (hmore : more ⊆ members.toFinset)
    (hcard : more.card = partitions.length % members.length) :
    (members.map (evenTarget partitions members more)).sum = partitions.length := by
  have hinter : members.toFinset.filter (· ∈ more) = more :=
    Finset.filter_mem_eq_inter.trans (Finset.inter_eq_right.mpr hmore)
  rw [← List.sum_toFinset _ hmembers]
  show ∑ m ∈ members.toFinset,
    (partitions.length / members.length + if m ∈ more then 1 else 0) = partitions.length
  rw [Finset.sum_add_distrib, Finset.sum_const, smul_eq_mul, List.toFinset_card_of_nodup hmembers,
    ← Finset.card_filter, hinter, hcard]
  exact Nat.div_add_mod _ _

/-- The first members in order get one more. -/
theorem getD_balancedCounts {partitions : List ℤ} {members : List String} (hmembers : members.Nodup)
    {m : String} (hm : m ∈ members) :
    (Dict.ofList (members.zip (balancedCounts partitions.length members.length))).getD m 0 =
      evenTarget partitions members
        (members.take (partitions.length % members.length)).toFinset m := by
  obtain ⟨i, hi, rfl⟩ := List.mem_iff_getElem.mp hm
  have hlength : (balancedCounts partitions.length members.length).length = members.length := by
    rw [balancedCounts, List.length_map, List.length_range]
  have hkeys : ((members.zip (balancedCounts partitions.length members.length)).map
      Prod.fst).Nodup := by
    rwa [List.map_fst_zip hlength.ge]
  have hmem : (members[i], partitions.length / members.length +
      if i < partitions.length % members.length then 1 else 0) ∈
        members.zip (balancedCounts partitions.length members.length) := by
    refine List.mem_iff_getElem.mpr ⟨i, ?_, ?_⟩
    · rw [List.length_zip, hlength, Nat.min_self]
      exact hi
    · rw [List.getElem_zip]
      simp only [balancedCounts, List.getElem_map, List.getElem_range]
  have hfirst : members[i] ∈ (members.take (partitions.length % members.length)).toFinset ↔
      i < partitions.length % members.length := by
    rw [List.mem_toFinset, List.mem_take_iff_getElem]
    constructor
    · rintro ⟨j, hj, heq⟩
      obtain ⟨hlt, hj⟩ := lt_min_iff.mp hj
      obtain rfl : j = i := hmembers.getElem_inj_iff.mp heq
      exact hlt
    · exact fun hlt => ⟨i, lt_min hlt hi, rfl⟩
  rw [Dict.getD, (Dict.get?_ofList_eq_some_iff hkeys).mpr hmem, evenTarget]
  simp only [Option.getD_some, hfirst]

/-! ### Placed assignments -/

theorem parts_sortParts_perm (result : Result) (m : String) :
    ((Assignment.mk (sortParts result)).parts m).Perm (partsOf result m) := by
  rw [Assignment.parts, sortParts, Dict.getD, Dict.get?_mapValues, partsOf, Dict.getD]
  cases result.get? m with
  | none => exact List.Perm.refl _
  | some parts => exact List.mergeSort_perm _ _

section Placed

variable {previous : Option Assignment} {left : List ℤ} {target : String → ℕ}
  {members : List String} {partitions : List ℤ} {a : Assignment} {m : String} {p : ℤ}

theorem Sharing.ownedOnce (h : Sharing target members partitions a.parts [])
    (hpartitions : partitions.Nodup) (p : ℤ) : a.OwnedOnce p :=
  fun _ _ hp hp' => h.eq_of_mem hpartitions hp hp'

theorem Sharing.load_ownerOf (h : Sharing target members partitions a.parts [])
    (hpartitions : partitions.Nodup) (m : String) :
    Shares.load partitions.toFinset a.ownerOf m = (a.parts m).length := by
  rw [Shares.load, ← List.toFinset_card_of_nodup (h.nodup_parts hpartitions m)]
  refine congrArg Finset.card (Finset.ext fun p => ?_)
  rw [Finset.mem_filter, List.mem_toFinset, List.mem_toFinset,
    (h.ownedOnce hpartitions p).ownerOf_eq_some_iff]
  exact ⟨fun hp => hp.2, fun hp => ⟨h.mem_partitions hp, hp⟩⟩

theorem Sharing.exists_ownerOf (h : Sharing target members partitions a.parts [])
    (hpartitions : partitions.Nodup) (hp : p ∈ partitions) :
    ∃ m ∈ members, a.ownerOf p = some m := by
  obtain ⟨m, hm, hpm⟩ := h.exists_mem hp
  exact ⟨m, hm, (h.ownedOnce hpartitions p).ownerOf_eq_some_iff.mpr hpm⟩

/-- What was left after keeping is what its owner did not have before. -/
theorem Filling.length_left (h : Filling previous left target members partitions a.parts [])
    (hpartitions : partitions.Nodup) (hleft : left.Nodup) (hsubset : left ⊆ partitions) :
    left.length = partitions.countP fun p =>
      ¬ (a.ownerOf p).any fun m => p ∈ previousParts previous m := by
  have hperm : left.Perm (partitions.filter fun p => p ∈ left) := by
    refine (List.perm_ext_iff_of_nodup hleft (hpartitions.filter _)).mpr fun p => ?_
    rw [List.mem_filter, decide_eq_true_iff]
    exact ⟨fun hp => ⟨hsubset hp, hp⟩, fun hp => hp.2⟩
  rw [hperm.length_eq, ← List.countP_eq_length_filter]
  refine List.countP_congr fun p hp => ?_
  obtain ⟨m, -, hm⟩ := h.sharing.exists_ownerOf hpartitions hp
  have hiff := h.had_iff m p (Assignment.mem_parts_of_ownerOf hm)
  rw [hm]
  simp only [Option.any_some, decide_eq_true_iff, hiff, not_not]

/-- Nobody loses a partition and gets a new one. -/
theorem Filling.sticky_ownerOf {before : Assignment}
    (h : Filling (some before) left target members partitions a.parts [])
    (hpartitions : partitions.Nodup) (hbefore : ∀ p ∈ partitions, before.OwnedOnce p) :
    Shares.Sticky partitions.toFinset members.toFinset before.ownerOf a.ownerOf := by
  rintro m hm ⟨p, hp, hhad, hlost⟩ q hq hown
  rw [List.mem_toFinset] at hm hp hq
  have hpm := Assignment.mem_parts_of_ownerOf hhad
  obtain ⟨m', -, hm'⟩ := h.sharing.exists_ownerOf hpartitions hp
  have hpm' := Assignment.mem_parts_of_ownerOf hm'
  have hleft : p ∈ left := by
    by_contra hkept
    -- it was kept by its one owner
    obtain rfl := hbefore p hp m m' hpm ((h.had_iff m' p hpm').mpr hkept)
    exact hlost hm'
  exact (hbefore q hq).ownerOf_eq_some_iff.mpr
    (h.sticky m hm p hleft hpm q (Assignment.mem_parts_of_ownerOf hown))

variable {more : Finset String}

theorem Sharing.length_eq_evenTarget (h : Sharing target members partitions a.parts [])
    (hmembers : members.Nodup) (hmore : more ⊆ members.toFinset)
    (hcard : more.card = partitions.length % members.length)
    (htarget : ∀ m ∈ members, target m = evenTarget partitions members more m) (hm : m ∈ members) :
    (a.parts m).length = evenTarget partitions members more m := by
  have hsum : (members.map target).sum = partitions.length := by
    rw [List.map_congr_left htarget, sum_evenTarget hmembers hmore hcard]
  rw [h.length_eq hsum hm, htarget m hm]

/-- What a member has, from what it has when all is placed. -/
theorem Sharing.even_ownerOf (h : Sharing target members partitions a.parts [])
    (hpartitions : partitions.Nodup)
    (hlength : ∀ m ∈ members, (a.parts m).length = evenTarget partitions members more m) :
    Shares.Even partitions.toFinset members.toFinset a.ownerOf where
  covers p hp := by
    obtain ⟨m, hm, hown⟩ := h.exists_ownerOf hpartitions (List.mem_toFinset.mp hp)
    exact ⟨m, List.mem_toFinset.mpr hm, hown⟩
  level m hm m' hm' := by
    rw [h.load_ownerOf hpartitions, h.load_ownerOf hpartitions,
      hlength m (List.mem_toFinset.mp hm), hlength m' (List.mem_toFinset.mp hm')]
    simp only [evenTarget]
    split <;> split <;> omega

theorem Sharing.extra_ownerOf (h : Sharing target members partitions a.parts [])
    (hpartitions : partitions.Nodup) (hmembers : members.Nodup)
    (hmore : more ⊆ members.toFinset)
    (hlength : ∀ m ∈ members, (a.parts m).length = evenTarget partitions members more m) :
    Shares.extra partitions.toFinset members.toFinset a.ownerOf = more := by
  ext m
  rw [Shares.mem_extra, List.toFinset_card_of_nodup hpartitions,
    List.toFinset_card_of_nodup hmembers, h.load_ownerOf hpartitions]
  constructor
  · rintro ⟨hm, heq⟩
    rw [hlength m (List.mem_toFinset.mp hm), evenTarget] at heq
    by_contra hout
    rw [if_neg hout] at heq
    omega
  · intro hm
    refine ⟨hmore hm, ?_⟩
    rw [hlength m (List.mem_toFinset.mp (hmore hm)), evenTarget, if_pos hm]

end Placed

section StickyAssign

variable {previous : Option Assignment} {target : String → ℕ} {members : List String}
  {partitions : List ℤ} {more : Finset String}

/-- An assignment as `place` makes it, with targets that give some members one more. -/
theorem exists_filling_sortParts (previous : Option Assignment) (hpartitions : partitions.Nodup)
    (hmembers : members.Nodup) (hmore : more ⊆ members.toFinset)
    (hcard : more.card = partitions.length % members.length)
    (htarget : ∀ m ∈ members, target m = evenTarget partitions members more m) :
    ∃ left, Filling previous left target members partitions
        (Assignment.mk (sortParts (place target members previous partitions).1)).parts [] ∧
      left.Nodup ∧ left ⊆ partitions ∧
      (place target members previous partitions).2 =
        if previous.isSome then left.length else 0 := by
  have hsum : (members.map target).sum = partitions.length := by
    rw [List.map_congr_left htarget, sum_evenTarget hmembers hmore hcard]
  obtain ⟨left, hfilling, hrest⟩ := exists_filling_place previous hmembers hpartitions hsum
  exact ⟨left, hfilling.of_perm (parts_sortParts_perm _) (List.Perm.refl _), hrest⟩

/-- Members that get one more can be chosen. -/
theorem exists_sticky {before : Assignment} (hpartitions : partitions.Nodup)
    (hmembers : members.Nodup) (hbefore : ∀ p ∈ partitions, before.OwnedOnce p)
    (hmore : more ⊆ members.toFinset)
    (hcard : more.card = partitions.toFinset.card % members.toFinset.card) :
    ∃ f, Shares.Even partitions.toFinset members.toFinset f ∧
      Shares.Sticky partitions.toFinset members.toFinset before.ownerOf f ∧
      Shares.extra partitions.toFinset members.toFinset f = more := by
  rw [List.toFinset_card_of_nodup hpartitions, List.toFinset_card_of_nodup hmembers] at hcard
  obtain ⟨left, hfilling, -⟩ := exists_filling_sortParts (some before) hpartitions hmembers hmore
    hcard fun _ _ => rfl
  have hlength (m : String) (hm : m ∈ members) :=
    hfilling.sharing.length_eq_evenTarget hmembers hmore hcard (fun _ _ => rfl) hm
  exact ⟨_, hfilling.sharing.even_ownerOf hpartitions hlength,
    hfilling.sticky_ownerOf hpartitions hbefore,
    hfilling.sharing.extra_ownerOf hpartitions hmembers hmore hlength⟩

/-- The members that get one more: the first in order. -/
def firstMembers (partitions : List ℤ) (members : List String) : List String :=
  (members.mergeSort fun m m' => m ≤ m').take (partitions.length % members.length)

theorem nodup_firstMembers (partitions : List ℤ) (hmembers : members.Nodup) :
    (firstMembers partitions members).Nodup :=
  ((List.mergeSort_perm _ _).nodup_iff.mpr hmembers).sublist (List.take_sublist _ _)

theorem firstMembers_subset (partitions : List ℤ) (members : List String) :
    firstMembers partitions members ⊆ members :=
  fun _ hm => (List.mergeSort_perm _ _).subset (List.mem_of_mem_take hm)

theorem length_firstMembers (partitions : List ℤ) (hne : members ≠ []) :
    (firstMembers partitions members).length = partitions.length % members.length := by
  have hpos := List.length_pos_iff.mpr hne
  rw [firstMembers, List.length_take, (List.mergeSort_perm _ _).length_eq]
  exact Nat.min_eq_left (Nat.mod_lt _ hpos).le

/-- What `sticky_assign` returns: partitions placed as `Filling` says, the first members in order
with one more, and the number of those that were left after keeping. -/
theorem stickyAssign_spec (previous : Option Assignment) (hpartitions : partitions.Nodup)
    (hmembers : members.Nodup) (hne : members ≠ []) :
    ∃ assignment moved left target,
      stickyAssign partitions members previous = .ok (assignment, moved) ∧
      Filling previous left target members partitions assignment.parts [] ∧
      (∀ m ∈ members, (assignment.parts m).length =
        evenTarget partitions members (firstMembers partitions members).toFinset m) ∧
      left.Nodup ∧ left ⊆ partitions ∧ moved = if previous.isSome then left.length else 0 := by
  have hperm := List.mergeSort_perm members fun m m' => m ≤ m'
  have hnodup := hperm.nodup_iff.mpr hmembers
  have hmore : (firstMembers partitions members).toFinset ⊆
      (members.mergeSort fun m m' => m ≤ m').toFinset := fun m hm =>
    List.mem_toFinset.mpr (List.mem_of_mem_take (List.mem_toFinset.mp hm))
  have hcard : (firstMembers partitions members).toFinset.card =
      partitions.length % (members.mergeSort fun m m' => m ≤ m').length := by
    rw [List.toFinset_card_of_nodup (nodup_firstMembers partitions hmembers),
      length_firstMembers partitions hne, hperm.length_eq]
  have htarget (m : String) (hm : m ∈ members.mergeSort fun m m' => m ≤ m') :
      (Dict.ofList ((members.mergeSort fun m m' => m ≤ m').zip (balancedCounts partitions.length
        (members.mergeSort fun m m' => m ≤ m').length))).getD m 0 =
      evenTarget partitions (members.mergeSort fun m m' => m ≤ m')
        (firstMembers partitions members).toFinset m := by
    rw [getD_balancedCounts hnodup hm, firstMembers, hperm.length_eq]
  obtain ⟨left, hfilling, hrest⟩ := exists_filling_sortParts previous hpartitions hnodup hmore
    hcard htarget
  refine ⟨_, _, left, _, if_neg hne, hfilling.of_perm_members hperm, fun m hm => ?_, hrest⟩
  rw [hfilling.sharing.length_eq_evenTarget hnodup hmore hcard htarget (hperm.mem_iff.mpr hm),
    evenTarget, evenTarget, hperm.length_eq]

/-- Everybody's part is rounded down or up. -/
theorem evenTarget_eq_or_eq {m : String} (hpos : 0 < members.length) (hm : m ∈ more →
    0 < partitions.length % members.length) :
    evenTarget partitions members more m = partitions.length / members.length ∨
      evenTarget partitions members more m =
        (partitions.length + members.length - 1) / members.length := by
  rw [evenTarget]
  split
  · next hmore =>
    right
    have hrest := hm hmore
    have hlt := Nat.mod_lt partitions.length hpos
    have hdiv := Nat.div_add_mod partitions.length members.length
    refine (Nat.div_eq_of_lt_le ?_ ?_).symm
    · rw [Nat.mul_comm, Nat.mul_succ]
      omega
    · rw [Nat.mul_comm, Nat.mul_succ, Nat.mul_succ]
      omega
  · exact Or.inl rfl

/-! ### What comes out -/

/-- **Shared out evenly, and counted.** Whatever came before, every partition goes to one member and
every member has its part of them, rounded down or up. Counted as moved are the partitions whose new
owner did not have them before. If no two members had a partition before, these are the partitions
whose owner changed. -/
theorem stickyAssign_shares_out (partitions : List ℤ) (members : List String)
    (previous : Option Assignment) (hpartitions : partitions.Nodup) (hmembers : members.Nodup)
    (hne : members ≠ []) :
    ∃ assignment moved,
      stickyAssign partitions members previous = .ok (assignment, moved) ∧
      (∀ p ∈ partitions, ∃! m, p ∈ assignment.parts m) ∧
      (∀ m p, p ∈ assignment.parts m → m ∈ members ∧ p ∈ partitions) ∧
      (∀ m ∈ members, (assignment.parts m).Nodup ∧
        ((assignment.parts m).length = partitions.length / members.length ∨
          (assignment.parts m).length =
            (partitions.length + members.length - 1) / members.length)) ∧
      ∀ before, previous = some before →
        (moved = partitions.countP fun p =>
          ¬ (assignment.ownerOf p).any fun m => p ∈ before.parts m) ∧
        ((∀ p ∈ partitions, before.OwnedOnce p) →
          moved = partitions.countP fun p => assignment.ownerOf p ≠ before.ownerOf p) := by
  obtain ⟨assignment, moved, left, target, hok, hfilling, hlength, hleft, hsubset, hmoved⟩ :=
    stickyAssign_spec previous hpartitions hmembers hne
  have hsharing := hfilling.sharing
  refine ⟨assignment, moved, hok, fun p hp => ?_, fun m p hp =>
    ⟨hsharing.mem_members hp, hsharing.mem_partitions hp⟩, fun m hm =>
    ⟨hsharing.nodup_parts hpartitions m, ?_⟩, ?_⟩
  · obtain ⟨m, -, hpm⟩ := hsharing.exists_mem hp
    exact ⟨m, hpm, fun m' hpm' => hsharing.eq_of_mem hpartitions hpm' hpm⟩
  · rw [hlength m hm]
    refine evenTarget_eq_or_eq (List.length_pos_iff.mpr hne) fun hmore => ?_
    rw [← length_firstMembers partitions hne]
    exact List.length_pos_of_mem (List.mem_toFinset.mp hmore)
  · rintro before rfl
    have hcount := hfilling.length_left hpartitions hleft hsubset
    rw [← show moved = left.length from hmoved] at hcount
    refine ⟨hcount, fun hbefore => hcount.trans (List.countP_congr fun p hp => ?_)⟩
    obtain ⟨m, -, hm⟩ := hsharing.exists_ownerOf hpartitions hp
    have hhad := (hbefore p hp).ownerOf_eq_some_iff (m := m)
    rw [hm, decide_eq_true_iff, decide_eq_true_iff, Option.any_some, decide_eq_true_iff]
    exact not_congr (hhad.symm.trans eq_comm)

/-- Owners that left, partitions that are gone and new ones. -/
theorem stickyAssign_shares_out_witness : ∃ assignment moved,
    stickyAssign [0, 1, 2, 3] ["b", "a"]
      (some ⟨Dict.ofList [("b", [0, 1, 9]), ("c", [2])]⟩) = .ok (assignment, moved) ∧
    (assignment.parts "a").length = 2 ∧ (assignment.parts "b").length = 2 ∧
    ∀ p ∈ ([0, 1, 2, 3] : List ℤ), ∃! m, p ∈ assignment.parts m := by
  obtain ⟨assignment, moved, hok, howner, -, hparts, -⟩ :=
    stickyAssign_shares_out [0, 1, 2, 3] ["b", "a"]
      (some ⟨Dict.ofList [("b", [0, 1, 9]), ("c", [2])]⟩) (by decide) (by decide) (by decide)
  exact ⟨assignment, moved, hok, (hparts "a" (by decide)).2.elim id id,
    (hparts "b" (by decide)).2.elim id id, howner⟩

/-- A partition that two members had: the one it is looked up with loses it, and nothing moved. -/
theorem stickyAssign_two_owners :
    stickyAssign [0] ["a", "b"] (some ⟨Dict.ofList [("b", [0]), ("a", [0])]⟩) =
        .ok (⟨Dict.ofList [("a", [0]), ("b", [])]⟩, 0) ∧
      ([0] : List ℤ).countP (fun p =>
        Assignment.ownerOf ⟨Dict.ofList [("a", [0]), ("b", [])]⟩ p ≠
          Assignment.ownerOf ⟨Dict.ofList [("b", [0]), ("a", [0])]⟩ p) = 1 := by
  constructor
  · rw [stickyAssign, if_neg (by decide)]
    simp only [place, sortParts, List.mergeSort_eq_insertionSort]
    exact congrArg Except.ok (by decide +kernel)
  · decide +kernel

/-- **When `sticky_assign` relocates least.** No even assignment relocates fewer partitions exactly
when every member that is given one more had more than everybody's part before, or nobody else had.
The first in order are given one more, whoever had it. -/
theorem stickyAssign_relocates_least_iff (partitions : List ℤ) (members : List String)
    (before : Assignment) (hpartitions : partitions.Nodup) (hmembers : members.Nodup)
    (hne : members ≠ []) (hbefore : ∀ p ∈ partitions, before.OwnedOnce p) :
    ∃ assignment moved,
      stickyAssign partitions members (some before) = .ok (assignment, moved) ∧
      Shares.Even partitions.toFinset members.toFinset assignment.ownerOf ∧
      ((∀ f, Shares.Even partitions.toFinset members.toFinset f →
          Shares.relocated partitions.toFinset members.toFinset before.ownerOf assignment.ownerOf ≤
            Shares.relocated partitions.toFinset members.toFinset before.ownerOf f) ↔
        (∀ m ∈ firstMembers partitions members,
          partitions.length / members.length <
            Shares.load partitions.toFinset before.ownerOf m) ∨
        ∀ m ∈ members, m ∉ firstMembers partitions members →
          Shares.load partitions.toFinset before.ownerOf m ≤
            partitions.length / members.length) := by
  obtain ⟨assignment, moved, left, target, hok, hfilling, hlength, -⟩ :=
    stickyAssign_spec (some before) hpartitions hmembers hne
  have hmore : (firstMembers partitions members).toFinset ⊆ members.toFinset := fun m hm =>
    List.mem_toFinset.mpr (firstMembers_subset partitions members (List.mem_toFinset.mp hm))
  have heven := hfilling.sharing.even_ownerOf hpartitions hlength
  refine ⟨assignment, moved, hok, heven, ?_⟩
  rw [Shares.relocated_le_iff heven (hfilling.sticky_ownerOf hpartitions hbefore) fun more hmore
      hcard => exists_sticky hpartitions hmembers hbefore hmore hcard,
    hfilling.sharing.extra_ownerOf hpartitions hmembers hmore hlength,
    List.toFinset_card_of_nodup hpartitions, List.toFinset_card_of_nodup hmembers]
  simp only [List.mem_toFinset]

/-- A member leaves and the one that is given one more has it from the member that left. -/
theorem stickyAssign_relocates_least_iff_witness : ∃ assignment moved,
    stickyAssign [0, 1, 2] ["a", "b"]
      (some ⟨Dict.ofList [("a", [0]), ("b", [1]), ("c", [2])]⟩) = .ok (assignment, moved) ∧
    ∀ f, Shares.Even ([0, 1, 2] : List ℤ).toFinset ["a", "b"].toFinset f →
      Shares.relocated ([0, 1, 2] : List ℤ).toFinset ["a", "b"].toFinset
          (Assignment.ownerOf ⟨Dict.ofList [("a", [0]), ("b", [1]), ("c", [2])]⟩)
          assignment.ownerOf ≤
        Shares.relocated ([0, 1, 2] : List ℤ).toFinset ["a", "b"].toFinset
          (Assignment.ownerOf ⟨Dict.ofList [("a", [0]), ("b", [1]), ("c", [2])]⟩) f := by
  obtain ⟨assignment, moved, hok, -, hiff⟩ :=
    stickyAssign_relocates_least_iff [0, 1, 2] ["a", "b"]
      ⟨Dict.ofList [("a", [0]), ("b", [1]), ("c", [2])]⟩ (by decide) (by decide) (by decide)
      (by decide +kernel)
  have hload : ∀ m ∈ ["a", "b"], Shares.load ([0, 1, 2] : List ℤ).toFinset
      (Assignment.ownerOf ⟨Dict.ofList [("a", [0]), ("b", [1]), ("c", [2])]⟩) m ≤ 3 / 2 := by
    decide +kernel
  exact ⟨assignment, moved, hok, hiff.mpr (Or.inr fun m hm _ => hload m hm)⟩

/-- The one more goes to the first in order, and a member that had two has to give one up. -/
theorem stickyAssign_relocates_more :
    stickyAssign [0, 1, 2] ["a", "b"] (some ⟨Dict.ofList [("a", [2]), ("b", [0, 1])]⟩) =
        .ok (⟨Dict.ofList [("a", [1, 2]), ("b", [0])]⟩, 1) ∧
      (∀ p ∈ ([0, 1, 2] : List ℤ),
        Assignment.OwnedOnce ⟨Dict.ofList [("a", [2]), ("b", [0, 1])]⟩ p) ∧
      Shares.relocated ([0, 1, 2] : List ℤ).toFinset ["a", "b"].toFinset
        (Assignment.ownerOf ⟨Dict.ofList [("a", [2]), ("b", [0, 1])]⟩)
        (Assignment.ownerOf ⟨Dict.ofList [("a", [1, 2]), ("b", [0])]⟩) = 1 ∧
      ∃ f, Shares.Even ([0, 1, 2] : List ℤ).toFinset ["a", "b"].toFinset f ∧
        Shares.relocated ([0, 1, 2] : List ℤ).toFinset ["a", "b"].toFinset
          (Assignment.ownerOf ⟨Dict.ofList [("a", [2]), ("b", [0, 1])]⟩) f = 0 := by
  refine ⟨?_, by decide +kernel, by decide +kernel,
    Assignment.ownerOf ⟨Dict.ofList [("a", [2]), ("b", [0, 1])]⟩,
    ⟨by decide +kernel, by decide +kernel⟩, by decide +kernel⟩
  rw [stickyAssign, if_neg (by decide)]
  simp only [place, sortParts, List.mergeSort_eq_insertionSort]
  exact congrArg Except.ok (by decide +kernel)

end StickyAssign

end Rebalance

end Relay
