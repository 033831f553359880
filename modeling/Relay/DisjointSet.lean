import Mathlib.Algebra.Order.Ring.Int
import Relay.Errors
import Relay.Lib.Dict
import Relay.Lib.Forest
import Relay.Lib.Machine

/-!
# The disjoint set

Elements are put into groups by union, and two elements are in the same group if `find` gives the
same representative for both. Finding a representative goes up from parent to parent, and then goes
the same way again and points everything on it at the root.

The rank of an element is less than that of its parent. Both loops of `find` end because they go up
in rank, and the second one may point an element at its root because the root's rank is greater. So
the ranks are part of what a disjoint set is here, and a set whose parents form a circle cannot be
built.

## Scope

The number of groups is left out. The source makes a text of it.

## Main definitions

* `DisjointSet`, with `add`, `find`, `union` and `sameGroup`
* `Unions`: the pairs of elements that some calls have united

## Main results

* `disjointSet_groups`: the groups are the classes that the unions generate, whatever has been found
  between them
-/

namespace Relay

open Forest (RootOf)

/-- Elements with their parents and ranks. -/
structure DisjointSet where
  parent : Dict String String
  rank : Dict String ℤ
  /-- Every element has a rank. -/
  mem_rank_iff : ∀ a, a ∈ rank.keys ↔ a ∈ parent.keys
  /-- Parents are elements. -/
  closed : ∀ a p, parent.get? a = some p → p ∈ parent.keys
  /-- The rank grows from an element to its parent. -/
  ranked : Forest.Ranked parent.get? fun a => rank.getD a 0

namespace DisjointSet

/-- A set of no elements. -/
def new : DisjointSet where
  parent := ∅
  rank := ∅
  mem_rank_iff _ := Iff.rfl
  closed _ p h := absurd h.symm (Option.some_ne_none p)
  ranked _ p h := absurd h.symm (Option.some_ne_none p)

/-- The parent of an element. -/
def parentOf (ds : DisjointSet) (a : String) (h : a ∈ ds.parent.keys) : String :=
  (ds.parent.get? a).get (Option.isSome_iff_exists.mpr (ds.parent.mem_keys_iff.mp h))

theorem get?_parent (ds : DisjointSet) {a : String} (h : a ∈ ds.parent.keys) :
    ds.parent.get? a = some (ds.parentOf a h) :=
  (Option.some_get _).symm

/-- The rank of an element. -/
def rankOf (ds : DisjointSet) (a : String) : ℤ := ds.rank.getD a 0

/-- The elements of a greater rank. -/
def above (ds : DisjointSet) (a : String) : Finset String :=
  ds.rank.keys.toFinset.filter (ds.rankOf a < ds.rankOf ·)

/-- Going up leaves fewer elements above. -/
theorem card_above_lt (ds : DisjointSet) {a : String} (h : a ∈ ds.parent.keys)
    (hne : ds.parentOf a h ≠ a) : (ds.above (ds.parentOf a h)).card < (ds.above a).card :=
  Forest.card_filter_lt _
    (List.mem_toFinset.mpr ((ds.mem_rank_iff _).mpr (ds.closed a _ (ds.get?_parent h))))
    (ds.ranked a _ (ds.get?_parent h) hne)

theorem mem_keys_of_rootOf {ds : DisjointSet} {a r : String} (h : RootOf ds.parent.get? a r) :
    a ∈ ds.parent.keys :=
  ds.parent.mem_keys_iff.mpr (Option.ne_none_iff_exists'.mp h.ne_none)

/-- Pointing anything at an element or at itself leaves parents elements. -/
theorem closed_set (ds : DisjointSet) {a r : String} (hr : r = a ∨ r ∈ ds.parent.keys) :
    ∀ k p, (ds.parent.set a r).get? k = some p → p ∈ (ds.parent.set a r).keys := by
  intro k p hp
  rw [Dict.mem_keys_set]
  rw [Dict.get?_set] at hp
  split at hp
  · exact Option.some.inj hp ▸ hr
  · exact Or.inr (ds.closed k p hp)

/-- Pointing an element elsewhere makes no new elements. -/
theorem mem_keys_set (ds : DisjointSet) {a r k : String} (ha : a ∈ ds.parent.keys) :
    k ∈ (ds.parent.set a r).keys ↔ k ∈ ds.parent.keys := by
  rw [Dict.mem_keys_set, or_iff_right_of_imp]
  rintro rfl
  exact ha

/-- Point an element at its root. -/
def setParent (ds : DisjointSet) (element root : String) (h : RootOf ds.parent.get? element root)
    (hne : element ≠ root) : DisjointSet :=
  { ds with
    parent := ds.parent.set element root
    mem_rank_iff := fun a => by
      rw [ds.mem_rank_iff, ds.mem_keys_set (mem_keys_of_rootOf h)]
    closed := ds.closed_set (Or.inr (mem_keys_of_rootOf (RootOf.root h.isRoot)))
    ranked := fun a p hp hpa => by
      rw [Dict.get?_set] at hp
      split at hp
      · next heq =>
        obtain rfl := Option.some.inj hp
        exact heq ▸ ds.ranked.lt h hne
      · exact ds.ranked a p hp hpa }

theorem get?_setParent (ds : DisjointSet) {element root : String}
    (h : RootOf ds.parent.get? element root) (hne : element ≠ root) :
    (ds.setParent element root h hne).parent.get? =
      Function.update ds.parent.get? element (some root) := by
  funext k
  rw [Function.update_apply]
  exact ds.parent.get?_set element root k

/-- `add`. -/
def add (ds : DisjointSet) (element : String) : DisjointSet :=
  if h : element ∉ ds.parent.keys then
    { parent := ds.parent.set element element
      rank := ds.rank.set element 0
      mem_rank_iff := fun a => by
        rw [Dict.mem_keys_set, Dict.mem_keys_set, ds.mem_rank_iff]
      closed := ds.closed_set (Or.inl rfl)
      ranked := fun a p hp hpa => by
        rw [Dict.get?_set] at hp
        split at hp
        · next heq => exact absurd ((Option.some.inj hp).symm.trans heq.symm) hpa
        · next hne =>
          have hpe : p ≠ element := fun heq => h (heq ▸ ds.closed a p hp)
          simp only [Dict.getD_set, if_neg hne, if_neg hpe]
          exact ds.ranked a p hp hpa }
  else
    ds

/-- The first loop of `find`. -/
def walk (ds : DisjointSet) (root : String) (h : root ∈ ds.parent.keys) : String :=
  if _ : ds.parentOf root h ≠ root then
    ds.walk (ds.parentOf root h) (ds.closed root _ (ds.get?_parent h))
  else
    root
termination_by (ds.above root).card
decreasing_by
  exact ds.card_above_lt h ‹_›

/-- The walk ends at the root. -/
theorem rootOf_walk (ds : DisjointSet) (a : String) (h : a ∈ ds.parent.keys) :
    RootOf ds.parent.get? a (ds.walk a h) := by
  induction a, h using walk.induct ds with
  | case1 a h hroot ih =>
    rw [walk, dif_pos hroot]
    exact RootOf.step (ds.get?_parent h) ih
  | case2 a h hroot =>
    rw [walk, dif_neg hroot]
    exact RootOf.root ((ds.get?_parent h).trans (congrArg some (not_not.mp hroot)))

theorem parentOf_root {ds : DisjointSet} {root : String} (h : RootOf ds.parent.get? root root) :
    ds.parentOf root (mem_keys_of_rootOf h) = root :=
  Option.some.inj ((ds.get?_parent (mem_keys_of_rootOf h)).symm.trans h.isRoot)

theorem rootOf_parent_setParent {ds : DisjointSet} {element root : String}
    (h : RootOf ds.parent.get? element root) (hne : element ≠ root) :
    RootOf (ds.setParent element root h hne).parent.get?
      (ds.parentOf element (mem_keys_of_rootOf h)) root := by
  rw [get?_setParent, Forest.rootOf_compress_iff h]
  exact h.of_parent (ds.get?_parent (mem_keys_of_rootOf h))

/-- The second loop of `find`. -/
def compress (ds : DisjointSet) (root element : String)
    (h : RootOf ds.parent.get? element root) : DisjointSet :=
  -- the element to go on with is its parent from before the assignment
  if hp : ds.parentOf element (mem_keys_of_rootOf h) ≠ root then
    have hne : element ≠ root := fun heq => hp (by subst heq; exact parentOf_root h)
    (ds.setParent element root h hne).compress root
      (ds.parentOf element (mem_keys_of_rootOf h)) (rootOf_parent_setParent h hne)
  else
    ds
termination_by (ds.above element).card
decreasing_by
  refine ds.card_above_lt (mem_keys_of_rootOf h) fun heq => hne ?_
  have hroot := ds.get?_parent (mem_keys_of_rootOf h)
  exact (h.eq_of_isRoot (hroot.trans (congrArg some heq))).symm

/-- The error of a `find` of something that is not an element. -/
def neverAdded (element : String) : RelayError :=
  .invalid s!"'{element}' was never added; it has no group"

/-- `find`. -/
def find (ds : DisjointSet) (element : String) : Except RelayError String × DisjointSet :=
  if h : element ∈ ds.parent.keys then
    (.ok (ds.walk element h), ds.compress (ds.walk element h) element (ds.rootOf_walk element h))
  else
    (.error (neverAdded element), ds)

/-- The two calls of `find` that `union` and `same_group` begin with. -/
def findBoth (ds : DisjointSet) (a b : String) :
    Except RelayError (String × String) × DisjointSet :=
  match ds.find a with
  | (.error e, ds) => (.error e, ds)
  | (.ok ra, ds) =>
    match ds.find b with
    | (.error e, ds) => (.error e, ds)
    | (.ok rb, ds) => (.ok (ra, rb), ds)

/-- `same_group`. -/
def sameGroup (ds : DisjointSet) (a b : String) : Except RelayError Bool × DisjointSet :=
  match ds.findBoth a b with
  | (.error e, ds) => (.error e, ds)
  | (.ok (ra, rb), ds) => (.ok (ra = rb), ds)

/-! ### Finding -/

/-- Every element has the same root in both. -/
def SameRoots (ds ds' : DisjointSet) : Prop :=
  ∀ a r, RootOf ds'.parent.get? a r ↔ RootOf ds.parent.get? a r

section Find

variable {ds ds' ds'' : DisjointSet} {a b r ra rb : String}

theorem mem_keys_iff : a ∈ ds.parent.keys ↔ ∃ r, RootOf ds.parent.get? a r :=
  ⟨fun h => ⟨_, ds.rootOf_walk a h⟩, fun ⟨_, h⟩ => mem_keys_of_rootOf h⟩

theorem SameRoots.trans (h : SameRoots ds ds') (h' : SameRoots ds' ds'') : SameRoots ds ds'' :=
  fun a r => (h' a r).trans (h a r)

theorem SameRoots.mem_keys_iff (h : SameRoots ds ds') :
    a ∈ ds'.parent.keys ↔ a ∈ ds.parent.keys := by
  rw [DisjointSet.mem_keys_iff, DisjointSet.mem_keys_iff]
  exact exists_congr (h a)

/-- **Compression.** Every element keeps its root. -/
theorem sameRoots_compress (h : RootOf ds.parent.get? a r) : SameRoots ds (ds.compress r a h) := by
  induction ds, a, h using compress.induct r with
  | case1 ds a h hp hne ih =>
    rw [compress, dif_pos hp]
    refine SameRoots.trans (fun b s => ?_) ih
    rw [get?_setParent, Forest.rootOf_compress_iff h]
  | case2 ds a h hp =>
    rw [compress, dif_neg hp]
    exact fun _ _ => Iff.rfl

/-- A search finds the root, and keeps all of them. -/
theorem find_of_rootOf (h : RootOf ds.parent.get? a r) :
    ∃ ds', ds.find a = (.ok r, ds') ∧ SameRoots ds ds' := by
  have hmem := mem_keys_of_rootOf h
  obtain rfl := h.unique (ds.rootOf_walk a hmem)
  exact ⟨_, dif_pos hmem, sameRoots_compress _⟩

theorem find_of_not_mem (h : a ∉ ds.parent.keys) :
    ds.find a = (.error (neverAdded a), ds) :=
  dif_neg h

theorem sameRoots_find (ds : DisjointSet) (a : String) : SameRoots ds (ds.find a).2 := by
  by_cases h : a ∈ ds.parent.keys
  · obtain ⟨ds', hfind, hsame⟩ := find_of_rootOf (ds.rootOf_walk a h)
    exact hfind ▸ hsame
  · rw [find_of_not_mem h]
    exact fun _ _ => Iff.rfl

/-- What `find` gives depends on the roots only. -/
theorem find_congr (h : SameRoots ds ds') (a : String) : (ds'.find a).1 = (ds.find a).1 := by
  by_cases ha : a ∈ ds.parent.keys
  · have hroot := ds.rootOf_walk a ha
    obtain ⟨_, hfind, -⟩ := find_of_rootOf hroot
    obtain ⟨_, hfind', -⟩ := find_of_rootOf ((h a _).mpr hroot)
    rw [hfind, hfind']
  · rw [find_of_not_mem ha, find_of_not_mem (mt h.mem_keys_iff.mp ha)]

/-- Both searches do. -/
theorem findBoth_of_rootOf (ha : RootOf ds.parent.get? a ra) (hb : RootOf ds.parent.get? b rb) :
    ∃ ds', ds.findBoth a b = (.ok (ra, rb), ds') ∧ SameRoots ds ds' := by
  obtain ⟨ds₁, hfind₁, hsame₁⟩ := find_of_rootOf ha
  obtain ⟨ds₂, hfind₂, hsame₂⟩ := find_of_rootOf ((hsame₁ b rb).mpr hb)
  refine ⟨ds₂, ?_, hsame₁.trans hsame₂⟩
  rw [findBoth, hfind₁]
  simp only [hfind₂]

/-- If one of the elements was never added, there is no answer, and every element keeps its root. -/
theorem findBoth_of_not_mem (h : ¬ (a ∈ ds.parent.keys ∧ b ∈ ds.parent.keys)) :
    ∃ e ds', ds.findBoth a b = (.error e, ds') ∧ SameRoots ds ds' := by
  by_cases ha : a ∈ ds.parent.keys
  · obtain ⟨ds₁, hfind, hsame⟩ := find_of_rootOf (ds.rootOf_walk a ha)
    have hb : b ∉ ds₁.parent.keys := fun hb => h ⟨ha, hsame.mem_keys_iff.mp hb⟩
    refine ⟨neverAdded b, ds₁, ?_, hsame⟩
    rw [findBoth, hfind]
    simp only [find_of_not_mem hb]
  · exact ⟨_, ds, by rw [findBoth, find_of_not_mem ha], fun _ _ => Iff.rfl⟩

theorem rootOf_of_findBoth (h : ds.findBoth a b = (.ok (ra, rb), ds')) :
    RootOf ds'.parent.get? a ra ∧ RootOf ds'.parent.get? b rb := by
  by_cases hmem : a ∈ ds.parent.keys ∧ b ∈ ds.parent.keys
  · obtain ⟨ds₁, hfind, hsame⟩ :=
      findBoth_of_rootOf (ds.rootOf_walk a hmem.1) (ds.rootOf_walk b hmem.2)
    obtain ⟨hroots, rfl⟩ := Prod.mk.inj (hfind.symm.trans h)
    obtain ⟨rfl, rfl⟩ := Prod.mk.inj (Except.ok.inj hroots)
    exact ⟨(hsame a _).mpr (ds.rootOf_walk a hmem.1), (hsame b _).mpr (ds.rootOf_walk b hmem.2)⟩
  · obtain ⟨e, ds₁, hfind, -⟩ := findBoth_of_not_mem hmem
    exact nomatch (Prod.mk.inj (hfind.symm.trans h)).1

end Find

/-! ### Union -/

/-- The ranks after `ra` has taken in `rb`. -/
def raiseRank (ds : DisjointSet) (ra rb : String) : Dict String ℤ :=
  if ds.rankOf ra = ds.rankOf rb then ds.rank.set ra (ds.rankOf ra + 1) else ds.rank

/-- Only the rank of the upper root is raised, and only where the two are equal. -/
theorem getD_raiseRank (ds : DisjointSet) (ra rb a : String) :
    (ds.raiseRank ra rb).getD a 0 =
      if a = ra ∧ ds.rankOf ra = ds.rankOf rb then ds.rankOf a + 1 else ds.rankOf a := by
  rw [raiseRank]
  split
  · next htie =>
    rw [Dict.getD_set]
    split
    · next heq => rw [if_pos ⟨heq, htie⟩, heq]
    · next hne => rw [if_neg fun h => hne h.1, rankOf]
  · next htie => rw [if_neg fun h => htie h.2, rankOf]

theorem mem_keys_raiseRank (ds : DisjointSet) {ra rb a : String} (hra : ra ∈ ds.parent.keys) :
    a ∈ (ds.raiseRank ra rb).keys ↔ a ∈ ds.parent.keys := by
  rw [← ds.mem_rank_iff, raiseRank]
  split
  · rw [Dict.mem_keys_set, or_iff_right_of_imp]
    rintro rfl
    exact (ds.mem_rank_iff _).mpr hra
  · rfl

/-- Point a root at another one of at least its rank. -/
def attach (ds : DisjointSet) (ra rb : String) (hra : RootOf ds.parent.get? ra ra)
    (hrb : RootOf ds.parent.get? rb rb) (hne : ra ≠ rb) (hle : ds.rankOf rb ≤ ds.rankOf ra) :
    DisjointSet where
  parent := ds.parent.set rb ra
  rank := ds.raiseRank ra rb
  mem_rank_iff a := by
    rw [ds.mem_keys_raiseRank (mem_keys_of_rootOf hra), ds.mem_keys_set (mem_keys_of_rootOf hrb)]
  closed := ds.closed_set (Or.inr (mem_keys_of_rootOf hra))
  ranked a p hp hpa := by
    simp only [getD_raiseRank]
    rw [Dict.get?_set] at hp
    split at hp
    · next heq =>
      obtain rfl := Option.some.inj hp
      subst heq
      rw [if_neg fun h => hne h.1.symm]
      split
      · omega
      · next htie => exact lt_of_le_of_ne hle fun h => htie ⟨rfl, h.symm⟩
    · have hara : a ≠ ra := fun heq =>
        hpa (Option.some.inj (hp.symm.trans (heq ▸ hra.isRoot)))
      have hlt : ds.rankOf a < ds.rankOf p := ds.ranked a p hp hpa
      rw [if_neg fun h => hara h.1]
      split <;> omega

/-- What `union` does with two roots. -/
def link (ds : DisjointSet) (ra rb : String) (hra : RootOf ds.parent.get? ra ra)
    (hrb : RootOf ds.parent.get? rb rb) (hne : ra ≠ rb) : DisjointSet :=
  if h : ds.rankOf ra < ds.rankOf rb then
    ds.attach rb ra hrb hra hne.symm h.le
  else
    ds.attach ra rb hra hrb hne (not_lt.mp h)

/-- `union`. -/
def union (ds : DisjointSet) (a b : String) : Except RelayError Unit × DisjointSet :=
  match h : ds.findBoth a b with
  | (.error e, ds) => (.error e, ds)
  | (.ok (ra, rb), ds) =>
    if hne : ra = rb then
      (.ok (), ds)
    else
      (.ok (), ds.link ra rb (RootOf.root (rootOf_of_findBoth h).1.isRoot)
        (RootOf.root (rootOf_of_findBoth h).2.isRoot) hne)

section Union

variable {pairs pairs' : String → String → Prop} {ds : DisjointSet} {a b ra rb : String}

theorem get?_attach (hra : RootOf ds.parent.get? ra ra) (hrb : RootOf ds.parent.get? rb rb)
    (hne : ra ≠ rb) (hle : ds.rankOf rb ≤ ds.rankOf ra) :
    (ds.attach ra rb hra hrb hne hle).parent.get? =
      Function.update ds.parent.get? rb (some ra) := by
  funext k
  rw [Function.update_apply]
  exact ds.parent.get?_set rb ra k

theorem represents_link (h : Forest.Represents pairs ds.parent.get?)
    (hjoins : Forest.Joins pairs pairs' a b) (ha : RootOf ds.parent.get? a ra)
    (hb : RootOf ds.parent.get? b rb) (hra : RootOf ds.parent.get? ra ra)
    (hrb : RootOf ds.parent.get? rb rb) (hne : ra ≠ rb) :
    Forest.Represents pairs' (ds.link ra rb hra hrb hne).parent.get? := by
  rw [link]
  split
  · rw [get?_attach]
    exact h.link hjoins.symm hb ha hne.symm
  · rw [get?_attach]
    exact h.link hjoins ha hb hne

theorem mem_keys_link (hra : RootOf ds.parent.get? ra ra) (hrb : RootOf ds.parent.get? rb rb)
    (hne : ra ≠ rb) {k : String} :
    k ∈ (ds.link ra rb hra hrb hne).parent.keys ↔ k ∈ ds.parent.keys := by
  rw [link]
  split
  · exact ds.mem_keys_set (mem_keys_of_rootOf hra)
  · exact ds.mem_keys_set (mem_keys_of_rootOf hrb)

/-- The union of two elements compresses their ways up, and links their roots if they differ. -/
theorem union_of_rootOf (ha : RootOf ds.parent.get? a ra) (hb : RootOf ds.parent.get? b rb) :
    ∃ ds', SameRoots ds ds' ∧ (ra = rb ∧ ds.union a b = (.ok (), ds') ∨
      ∃ hra hrb hne, ds.union a b = (.ok (), ds'.link ra rb hra hrb hne)) := by
  obtain ⟨ds', hfind, hsame⟩ := findBoth_of_rootOf ha hb
  obtain ⟨hra, hrb⟩ := rootOf_of_findBoth hfind
  refine ⟨ds', hsame, ?_⟩
  rw [union]
  split
  · next h => exact nomatch (Prod.mk.inj (hfind.symm.trans h)).1
  · next h =>
    obtain ⟨hroots, rfl⟩ := Prod.mk.inj (hfind.symm.trans h)
    obtain ⟨rfl, rfl⟩ := Prod.mk.inj (Except.ok.inj hroots)
    split
    · next heq => exact Or.inl ⟨heq, rfl⟩
    · next hne => exact Or.inr ⟨RootOf.root hra.isRoot, RootOf.root hrb.isRoot, hne, rfl⟩

/-- There is no union with something that was never added, and every element keeps its root. -/
theorem union_of_not_mem (h : ¬ (a ∈ ds.parent.keys ∧ b ∈ ds.parent.keys)) :
    ∃ e ds', ds.union a b = (.error e, ds') ∧ SameRoots ds ds' := by
  obtain ⟨e, ds', hfind, hsame⟩ := findBoth_of_not_mem h
  refine ⟨e, ds', ?_, hsame⟩
  rw [union]
  split
  · next h =>
    obtain ⟨he, rfl⟩ := Prod.mk.inj (hfind.symm.trans h)
    rw [Except.error.inj he]
  · next h => exact nomatch (Prod.mk.inj (hfind.symm.trans h)).1

theorem mem_keys_union {k : String} : k ∈ (ds.union a b).2.parent.keys ↔ k ∈ ds.parent.keys := by
  by_cases hmem : a ∈ ds.parent.keys ∧ b ∈ ds.parent.keys
  · obtain ⟨ds', hsame, ⟨-, hunion⟩ | ⟨hra, hrb, hne, hunion⟩⟩ :=
      union_of_rootOf (ds.rootOf_walk a hmem.1) (ds.rootOf_walk b hmem.2)
    · rw [hunion, hsame.mem_keys_iff]
    · rw [hunion, mem_keys_link, hsame.mem_keys_iff]
  · obtain ⟨e, ds', hunion, hsame⟩ := union_of_not_mem hmem
    rw [hunion, hsame.mem_keys_iff]

theorem represents_union (h : Forest.Represents pairs ds.parent.get?)
    (hjoins : Forest.Joins pairs pairs' a b) (ha : a ∈ ds.parent.keys)
    (hb : b ∈ ds.parent.keys) : Forest.Represents pairs' (ds.union a b).2.parent.get? := by
  have hra := ds.rootOf_walk a ha
  have hrb := ds.rootOf_walk b hb
  obtain ⟨ds', hsame, hunion⟩ := union_of_rootOf hra hrb
  have h' : Forest.Represents pairs ds'.parent.get? := h.congr hsame
  rw [← hsame] at hra hrb
  rcases hunion with ⟨heq, hunion⟩ | ⟨hra', hrb', hne, hunion⟩
  · rw [hunion]
    exact h'.join hjoins hra (heq ▸ hrb)
  · rw [hunion]
    exact represents_link h' hjoins hra hrb hra' hrb' hne

end Union

end DisjointSet

/-! ## Calls -/

/-- A call on a disjoint set. -/
inductive DisjointSetCall
  | add (element : String)
  | find (element : String)
  | union (a b : String)
  | sameGroup (a b : String)

namespace DisjointSet

/-- A disjoint set after a call. -/
def call (ds : DisjointSet) : DisjointSetCall → DisjointSet
  | .add element => ds.add element
  | .find element => (ds.find element).2
  | .union a b => (ds.union a b).2
  | .sameGroup a b => (ds.sameGroup a b).2

end DisjointSet

/-- The calls have united `a` and `b`: there was a union of the two when both had been added. -/
def Unions (calls : List DisjointSetCall) (a b : String) : Prop :=
  Occurs (fun past call => call = .union a b ∧ .add a ∈ past ∧ .add b ∈ past) calls

namespace DisjointSet

/-- The elements are those that have been added, and the trees are the classes of the unions. -/
structure GroupsOf (calls : List DisjointSetCall) (ds : DisjointSet) : Prop where
  mem_keys_iff : ∀ a, a ∈ ds.parent.keys ↔ .add a ∈ calls
  represents : Forest.Represents (Unions calls) ds.parent.get?

section Calls

variable {calls : List DisjointSetCall} {ds ds' : DisjointSet}

/-- A call that is no union unites nothing. -/
theorem unions_append_of_ne {c : DisjointSetCall} (hc : ∀ a b, c ≠ .union a b) (a b : String) :
    Unions (calls ++ [c]) a b ↔ Unions calls a b := by
  rw [Unions, occurs_append_singleton, or_iff_left fun h => hc a b h.1, Unions]

/-- A call after which everything has the root it had, and nothing more is united. -/
theorem GroupsOf.append_of_sameRoots (h : GroupsOf calls ds) {c : DisjointSetCall}
    (hsame : SameRoots ds ds') (hadd : ∀ a, c ≠ .add a)
    (hunions : ∀ a b, Unions (calls ++ [c]) a b ↔ Unions calls a b) :
    GroupsOf (calls ++ [c]) ds' := by
  have hpairs : Unions (calls ++ [c]) = Unions calls := by
    funext a b
    exact propext (hunions a b)
  refine ⟨fun a => ?_, hpairs ▸ h.represents.congr hsame⟩
  rw [hsame.mem_keys_iff, h.mem_keys_iff, List.mem_append, List.mem_singleton,
    or_iff_left (hadd a).symm]

/-- An element that is added is a group of its own. -/
theorem GroupsOf.append_add (h : GroupsOf calls ds) (element : String) :
    GroupsOf (calls ++ [.add element]) (ds.add element) := by
  have hpairs : Unions (calls ++ [.add element]) = Unions calls := by
    funext a b
    exact propext (unions_append_of_ne (by simp) a b)
  have hmem : ∀ a, .add a ∈ calls ++ [.add element] ↔ a = element ∨ a ∈ ds.parent.keys := by
    intro a
    rw [List.mem_append, List.mem_singleton, DisjointSetCall.add.injEq, h.mem_keys_iff, or_comm]
  by_cases hnew : element ∉ ds.parent.keys
  · have hget? : (ds.add element).parent.get? =
        Function.update ds.parent.get? element (some element) := by
      funext k
      rw [add, dif_pos hnew, Function.update_apply]
      exact ds.parent.get?_set element element k
    refine ⟨fun a => ?_, ?_⟩
    · rw [hmem, add, dif_pos hnew, Dict.mem_keys_set]
    · rw [hpairs, hget?]
      refine h.represents.add ?_ fun b p hp heq => hnew (heq ▸ ds.closed b p hp)
      exact Option.eq_none_iff_forall_ne_some.mpr fun p hp =>
        hnew (ds.parent.mem_keys_iff.mpr ⟨p, hp⟩)
  · rw [add, dif_neg hnew]
    refine ⟨fun a => ?_, hpairs ▸ h.represents⟩
    rw [hmem, or_iff_right_of_imp]
    rintro rfl
    exact not_not.mp hnew

theorem GroupsOf.append_union (h : GroupsOf calls ds) (a b : String) :
    GroupsOf (calls ++ [.union a b]) (ds.union a b).2 := by
  have hunions : ∀ x y, Unions (calls ++ [.union a b]) x y ↔
      Unions calls x y ∨ (x = a ∧ y = b) ∧ a ∈ ds.parent.keys ∧ b ∈ ds.parent.keys := by
    intro x y
    rw [Unions, occurs_append_singleton, DisjointSetCall.union.injEq, Unions, h.mem_keys_iff,
      h.mem_keys_iff]
    refine or_congr_right ⟨?_, ?_⟩
    · rintro ⟨⟨rfl, rfl⟩, hmem⟩
      exact ⟨⟨rfl, rfl⟩, hmem⟩
    · rintro ⟨⟨rfl, rfl⟩, hmem⟩
      exact ⟨⟨rfl, rfl⟩, hmem⟩
  by_cases hmem : a ∈ ds.parent.keys ∧ b ∈ ds.parent.keys
  · have hjoins : Forest.Joins (Unions calls) (Unions (calls ++ [.union a b])) a b :=
      ⟨fun x y hxy => (hunions x y).mpr (Or.inl hxy),
        Relation.EqvGen.rel _ _ ((hunions a b).mpr (Or.inr ⟨⟨rfl, rfl⟩, hmem⟩)),
        fun x y hxy => ((hunions x y).mp hxy).imp_right fun h => Or.inl h.1⟩
    refine ⟨fun k => ?_, represents_union h.represents hjoins hmem.1 hmem.2⟩
    rw [mem_keys_union, h.mem_keys_iff, List.mem_append, List.mem_singleton, or_iff_left (by simp)]
  · obtain ⟨e, ds', hunion, hsame⟩ := union_of_not_mem hmem
    rw [hunion]
    refine h.append_of_sameRoots hsame (by simp) fun x y => ?_
    rw [hunions, or_iff_left fun h => hmem h.2]

theorem sameRoots_sameGroup (ds : DisjointSet) (a b : String) :
    SameRoots ds (ds.sameGroup a b).2 := by
  by_cases hmem : a ∈ ds.parent.keys ∧ b ∈ ds.parent.keys
  · obtain ⟨ds', hfind, hsame⟩ :=
      findBoth_of_rootOf (ds.rootOf_walk a hmem.1) (ds.rootOf_walk b hmem.2)
    rw [sameGroup, hfind]
    exact hsame
  · obtain ⟨e, ds', hfind, hsame⟩ := findBoth_of_not_mem hmem
    rw [sameGroup, hfind]
    exact hsame

theorem groupsOf_calls (calls : List DisjointSetCall) : GroupsOf calls (calls.foldl call new) := by
  induction calls using List.reverseRecOn with
  | nil =>
    refine ⟨fun a => iff_of_false List.not_mem_nil List.not_mem_nil, fun a r h => ?_, ?_⟩
    · exact absurd (mem_keys_of_rootOf h) List.not_mem_nil
    · exact fun a b h => absurd h (not_occurs_nil _)
  | append_singleton calls c ih =>
    rw [List.foldl_append]
    cases c with
    | add element => exact ih.append_add element
    | find element =>
      exact ih.append_of_sameRoots (sameRoots_find _ element) (by simp)
        (unions_append_of_ne (by simp))
    | union a b => exact ih.append_union a b
    | sameGroup a b =>
      exact ih.append_of_sameRoots (sameRoots_sameGroup _ a b) (by simp)
        (unions_append_of_ne (by simp))

end Calls

end DisjointSet

/-- **The disjoint set.** After any calls, with any finds between them, two elements are in the same
group exactly when the unions connect them, and a find, which points what it passes at the root,
makes no difference to what other finds give. -/
theorem disjointSet_groups (calls : List DisjointSetCall) :
    (∀ a b, .add a ∈ calls → .add b ∈ calls →
      ∃ same, ((calls.foldl DisjointSet.call DisjointSet.new).sameGroup a b).1 = .ok same ∧
        (same = true ↔ Relation.EqvGen (Unions calls) a b)) ∧
      ∀ a b, (((calls.foldl DisjointSet.call DisjointSet.new).find a).2.find b).1 =
        ((calls.foldl DisjointSet.call DisjointSet.new).find b).1 := by
  have h := DisjointSet.groupsOf_calls calls
  refine ⟨fun a b ha hb => ?_, fun a => DisjointSet.find_congr (DisjointSet.sameRoots_find _ a)⟩
  have hroota := DisjointSet.rootOf_walk _ a ((h.mem_keys_iff a).mpr ha)
  have hrootb := DisjointSet.rootOf_walk _ b ((h.mem_keys_iff b).mpr hb)
  obtain ⟨ds', hfind, -⟩ := DisjointSet.findBoth_of_rootOf hroota hrootb
  refine ⟨_, by rw [DisjointSet.sameGroup, hfind], ?_⟩
  rw [decide_eq_true_iff]
  exact h.represents.eq_iff hroota hrootb

/-- Two unions with a find between them, and one with an element that is added later. -/
theorem disjointSet_groups_four :
    ∃ same, (([.add "a", .add "b", .union "a" "b", .add "c", .find "b", .union "c" "b",
        .union "a" "d", .add "d"].foldl DisjointSet.call DisjointSet.new).sameGroup "a" "d").1 =
      .ok same ∧ (same = true ↔ Relation.EqvGen (Unions [.add "a", .add "b", .union "a" "b",
        .add "c", .find "b", .union "c" "b", .union "a" "d", .add "d"]) "a" "d") :=
  (disjointSet_groups _).1 "a" "d" (by simp) (by simp)

end Relay
