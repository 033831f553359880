import Mathlib.Data.Finset.Lattice.Basic
import Relay.Errors
import Relay.Lib.Causal
import Relay.Lib.Dict

/-!
# Observed-remove sets

Every add of an element attaches a tag of its own, and a remove records the tags that it observed.
An element is in the set while it has a tag that no remove has observed.

What this means can be said without tags: an element is in a replica's set exactly when the
replica knows of an add of it that happened before no remove of it which the replica knows of
(`contains_iff`). Behind it stands what the fields of a replica are at all times
(`TagsKnown`), and that no two adds attach one tag (`Adds.unique`): a tag carries the node's id, and
a replica's counter is past every tag the replica has seen, so also past all its own.

## Scope

The report on the tags that are kept is left out.

## Main definitions

* `ORSet`, with `add`, `remove`, `contains`, `merge` and `elements`
* `orSet`: the set at every node, as a replicated object
* `IsAdd`, `IsRemove`: the operations that took place

## Main results

* `orSet_spec`
-/

namespace Relay

/-- What an add attaches: the node's id and a number. -/
abbrev Tag := String × ℕ

/-- A replica of the set. -/
structure ORSet where
  nodeId : String := "n"
  adds : Dict String (Finset Tag) := ∅
  removes : Finset Tag := ∅
  nextTag : ℕ := 0

namespace ORSet

/-- `self.adds.get(element, set())`. -/
def tagsOf (set : ORSet) (element : String) : Finset Tag := set.adds.getD element ∅

/-- `contains`. -/
def contains (set : ORSet) (element : String) : Bool :=
  let live := set.tagsOf element \ set.removes
  live ≠ ∅

/-- `add`. -/
def add (set : ORSet) (element : String) : Tag × ORSet :=
  let tag := (set.nodeId, set.nextTag)
  (tag, { set with
    nextTag := set.nextTag + 1
    adds := set.adds.set element (insert tag (set.tagsOf element)) })

/-- `remove`. -/
def remove (set : ORSet) (element : String) : Except RelayError Unit × ORSet :=
  if ¬ set.contains element then
    (.error (.invalid (s!"'{element}' is not present; a remove observes no tags and "
      ++ "does nothing")), set)
  else (.ok (), { set with removes := set.removes ∪ set.tagsOf element })

/-- `merge`. -/
def merge (set other : ORSet) : ORSet where
  nodeId := set.nodeId
  adds := set.adds.mergeWith (· ∪ ·) ∅ other.adds
  removes := set.removes ∪ other.removes
  nextTag := max set.nextTag other.nextTag

/-- `elements`. -/
def elements (set : ORSet) : Finset String := (set.adds.keys.filter set.contains).toFinset

theorem contains_eq_true_iff {set : ORSet} {element : String} :
    set.contains element = true ↔ ∃ tag ∈ set.tagsOf element, tag ∉ set.removes := by
  rw [contains, decide_eq_true_eq, ← Finset.nonempty_iff_ne_empty]
  exact exists_congr fun tag => Finset.mem_sdiff

/-- An element is listed exactly when it is contained. -/
theorem mem_elements_iff {set : ORSet} {element : String} :
    element ∈ set.elements ↔ set.contains element = true := by
  rw [elements, List.mem_toFinset, List.mem_filter, and_iff_right_iff_imp]
  intro hcontains
  obtain ⟨tag, htag, -⟩ := contains_eq_true_iff.mp hcontains
  by_contra hkey
  rw [tagsOf, Dict.getD_of_not_mem_keys hkey] at htag
  exact absurd htag (Finset.notMem_empty tag)

theorem remove_fst_eq_ok_iff {set : ORSet} {element : String} :
    (set.remove element).1 = .ok () ↔ set.contains element = true := by
  rw [remove]
  split
  · next hnot => simp [hnot]
  · next hcontains => simpa using hcontains

/-- A remove observes the tags of the element, if there are any live ones. -/
theorem remove_snd (set : ORSet) (element : String) : (set.remove element).2 =
    if set.contains element = true then { set with removes := set.removes ∪ set.tagsOf element }
    else set := by
  rw [remove]
  split_ifs <;> rfl

theorem tagsOf_add (set : ORSet) (element e : String) : (set.add element).2.tagsOf e =
    if e = element then insert (set.nodeId, set.nextTag) (set.tagsOf e) else set.tagsOf e := by
  show (set.adds.set element _).getD e ∅ = _
  rw [Dict.getD_set]
  split
  · next he => rw [he]
  · rfl

theorem tagsOf_merge (set other : ORSet) (e : String) :
    (set.merge other).tagsOf e = set.tagsOf e ∪ other.tagsOf e :=
  Dict.getD_mergeWith set.adds other.adds (Finset.union_empty _)

end ORSet

/-! ## Runs -/

/-- The operations at a replica. -/
inductive ORSetOp where
  | add (element : String)
  | remove (element : String)
  deriving DecidableEq

/-- What they return: the tag of an add, or nothing. -/
inductive ORSetAnswer where
  | added (tag : Tag)
  | returned (result : Except RelayError Unit)

/-- A set at every node. -/
def orSet : Replicated String ORSet ORSetOp ORSetAnswer where
  init nodeId := { nodeId }
  update _ set
    | .add element =>
      let result := set.add element
      (.added result.1, result.2)
    | .remove element =>
      let result := set.remove element
      (.returned result.1, result.2)
  merge _ set other := (.returned (.ok ()), set.merge other)

/-- The event is an add of the element, and attached the tag. -/
def Adds (acts : List (Action String ORSetOp)) (a : ℕ) (element : String) (tag : Tag) : Prop :=
  ∃ i, (orSet.events acts)[a]? = some (.update i (.add element), .added tag)

/-- The event is an add of the element. -/
def IsAdd (acts : List (Action String ORSetOp)) (a : ℕ) (element : String) : Prop :=
  ∃ tag, Adds acts a element tag

/-- The event is a remove of the element that was not refused. -/
def IsRemove (acts : List (Action String ORSetOp)) (r : ℕ) (element : String) : Prop :=
  ∃ i, (orSet.events acts)[r]? = some (.update i (.remove element), .returned (.ok ()))

section Events

variable {acts : List (Action String ORSetOp)} {x : Action String ORSetOp}

/-- One more add, with the next tag of its replica. -/
theorem adds_append_singleton_iff {a : ℕ} {element : String} {tag : Tag} :
    Adds (acts ++ [x]) a element tag ↔ Adds acts a element tag ∨ a = acts.length ∧
      ∃ i, x = .update i (.add element) ∧ tag = (((orSet.run acts).replica i).nodeId,
        ((orSet.run acts).replica i).nextTag) := by
  simp only [Adds, orSet.events_append_singleton, getElem?_append_singleton_eq_some, exists_or,
    orSet.length_events, Prod.mk.injEq]
  refine or_congr_right ⟨?_, ?_⟩
  · rintro ⟨i, rfl, rfl, htag⟩
    exact ⟨rfl, i, rfl, (ORSetAnswer.added.inj htag).symm⟩
  · rintro ⟨rfl, i, rfl, rfl⟩
    exact ⟨i, rfl, rfl, rfl⟩

/-- One more remove, where its replica contains the element. -/
theorem isRemove_append_singleton_iff {r : ℕ} {element : String} :
    IsRemove (acts ++ [x]) r element ↔ IsRemove acts r element ∨ r = acts.length ∧
      ∃ i, x = .update i (.remove element) ∧
        ((orSet.run acts).replica i).contains element = true := by
  simp only [IsRemove, orSet.events_append_singleton, getElem?_append_singleton_eq_some, exists_or,
    orSet.length_events, Prod.mk.injEq]
  refine or_congr_right ⟨?_, ?_⟩
  · rintro ⟨i, rfl, rfl, hok⟩
    exact ⟨rfl, i, rfl, ORSet.remove_fst_eq_ok_iff.mp (ORSetAnswer.returned.inj hok)⟩
  · rintro ⟨rfl, i, rfl, hcontains⟩
    exact ⟨i, rfl, rfl, congrArg ORSetAnswer.returned (ORSet.remove_fst_eq_ok_iff.mpr hcontains)⟩

theorem Adds.lt_length {a : ℕ} {element : String} {tag : Tag} (h : Adds acts a element tag) :
    a < acts.length := by
  obtain ⟨i, h⟩ := h
  rw [← orSet.length_events acts]
  exact (List.getElem?_eq_some_iff.mp h).1

theorem IsRemove.lt_length {r : ℕ} {element : String} (h : IsRemove acts r element) :
    r < acts.length := by
  obtain ⟨i, h⟩ := h
  rw [← orSet.length_events acts]
  exact (List.getElem?_eq_some_iff.mp h).1

/-- No event is an add and a remove. -/
theorem Adds.ne_of_isRemove {a r : ℕ} {element e : String} {tag : Tag}
    (ha : Adds acts a element tag) (hr : IsRemove acts r e) : a ≠ r := by
  rintro rfl
  obtain ⟨i, ha⟩ := ha
  obtain ⟨j, hr⟩ := hr
  rw [ha] at hr
  cases hr

/-- An add attaches one tag to one element. -/
theorem Adds.eq_of_adds {a : ℕ} {element e : String} {tag tag' : Tag}
    (h : Adds acts a element tag) (h' : Adds acts a e tag') : element = e ∧ tag = tag' := by
  obtain ⟨i, h⟩ := h
  obtain ⟨j, h'⟩ := h'
  rw [h] at h'
  cases h'
  exact ⟨rfl, rfl⟩

end Events

/-- The event is a remove that knew of an add with the tag. -/
def Observes (acts : List (Action String ORSetOp)) (r : ℕ) (tag : Tag) : Prop :=
  ∃ e, IsRemove acts r e ∧ ∃ a ∈ causalPast acts r, Adds acts a e tag

section NewEvent

variable {acts : List (Action String ORSetOp)} {x : Action String ORSetOp}

theorem adds_append_of_lt {a : ℕ} (ha : a < acts.length) {e : String} {tag : Tag} :
    Adds (acts ++ [x]) a e tag ↔ Adds acts a e tag := by
  rw [adds_append_singleton_iff, or_iff_left fun hnew => ha.ne hnew.1]

theorem adds_length_iff {e : String} {tag : Tag} : Adds (acts ++ [x]) acts.length e tag ↔
    ∃ i, x = .update i (.add e) ∧ tag = (((orSet.run acts).replica i).nodeId,
      ((orSet.run acts).replica i).nextTag) := by
  rw [adds_append_singleton_iff, or_iff_right fun hold => lt_irrefl _ hold.lt_length,
    and_iff_right rfl]

theorem observes_append_of_lt {r : ℕ} (hr : r < acts.length) {tag : Tag} :
    Observes (acts ++ [x]) r tag ↔ Observes acts r tag := by
  have hremove : ∀ e, IsRemove (acts ++ [x]) r e ↔ IsRemove acts r e := by
    intro e
    rw [isRemove_append_singleton_iff, or_iff_left fun hnew => hr.ne hnew.1]
  rw [Observes, Observes, causalPast_append_singleton, if_neg hr.ne]
  refine exists_congr fun e => and_congr (hremove e) (exists_congr fun a => and_congr_right
    fun ha => adds_append_of_lt ((isPast_causalPast acts r).lt a ha))

/-- A remove observes the tags its replica knows of. -/
theorem observes_length_iff {tag : Tag} : Observes (acts ++ [x]) acts.length tag ↔
    ∃ i e, x = .update i (.remove e) ∧ ((orSet.run acts).replica i).contains e = true ∧
      ∃ a ∈ causalHistory acts i, Adds acts a e tag := by
  have hpast : ∀ {i e}, x = .update i (.remove e) →
      ((∃ a ∈ causalPast (acts ++ [x]) acts.length, Adds (acts ++ [x]) a e tag) ↔
        ∃ a ∈ causalHistory acts i, Adds acts a e tag) := by
    rintro i e rfl
    have hnot : ¬ Adds (acts ++ [.update i (.remove e)]) acts.length e tag := by
      rw [adds_length_iff]
      rintro ⟨j, hj, -⟩
      cases hj
    rw [causalPast_append_singleton, if_pos rfl, pastOfNext, Finset.exists_mem_insert,
      or_iff_right hnot]
    show (∃ a ∈ causalHistory acts i ∪ ∅, _) ↔ _
    rw [Finset.union_empty]
    exact exists_congr fun a => and_congr_right fun ha =>
      adds_append_of_lt ((isPast_causalHistory acts i).lt a ha)
  have hremove : ∀ e, IsRemove (acts ++ [x]) acts.length e ↔ ∃ i, x = .update i (.remove e) ∧
      ((orSet.run acts).replica i).contains e = true := by
    intro e
    rw [isRemove_append_singleton_iff, or_iff_right fun hold => lt_irrefl _ hold.lt_length,
      and_iff_right rfl]
  rw [Observes]
  simp only [hremove]
  constructor
  · rintro ⟨e, ⟨i, hx, hcontains⟩, hadd⟩
    exact ⟨i, e, hx, hcontains, (hpast hx).mp hadd⟩
  · rintro ⟨i, e, hx, hcontains, hadd⟩
    exact ⟨e, ⟨i, hx, hcontains⟩, (hpast hx).mpr hadd⟩

end NewEvent

/-- What the fields of a replica are, when the events `H` are known to it. -/
structure TagsKnown (acts : List (Action String ORSetOp)) (node : String) (H : Finset ℕ)
    (set : ORSet) : Prop where
  nodeId : set.nodeId = node
  /-- The tags of an element are those of the known adds. -/
  mem_tagsOf : ∀ e tag, tag ∈ set.tagsOf e ↔ ∃ a ∈ H, Adds acts a e tag
  /-- The removed tags are those that the known removes knew of. -/
  mem_removes : ∀ tag, tag ∈ set.removes ↔ ∃ r ∈ H, Observes acts r tag
  /-- The next tag is past all known ones. -/
  lt_nextTag : ∀ a ∈ H, ∀ e tag, Adds acts a e tag → tag.2 < set.nextTag

namespace TagsKnown

variable {acts : List (Action String ORSetOp)} {node : String} {H H' : Finset ℕ}
  {set other : ORSet}

theorem extend (h : TagsKnown acts node H set) (hH : ∀ a ∈ H, a < acts.length)
    (x : Action String ORSetOp) : TagsKnown (acts ++ [x]) node H set where
  nodeId := h.nodeId
  mem_tagsOf e tag := by
    rw [h.mem_tagsOf]
    exact exists_congr fun a => and_congr_right fun ha => (adds_append_of_lt (hH a ha)).symm
  mem_removes tag := by
    rw [h.mem_removes]
    exact exists_congr fun r => and_congr_right fun hr => (observes_append_of_lt (hH r hr)).symm
  lt_nextTag a ha e tag hadd := h.lt_nextTag a ha e tag ((adds_append_of_lt (hH a ha)).mp hadd)

theorem add (h : TagsKnown acts node (causalHistory acts node)
    ((orSet.run acts).replica node)) (e : String) :
    TagsKnown (acts ++ [.update node (.add e)]) node
      (insert acts.length (causalHistory acts node))
      (((orSet.run acts).replica node).add e).2 := by
  have h' := h.extend (isPast_causalHistory acts node).lt (.update node (.add e))
  refine ⟨h.nodeId, fun e' tag => ?_, fun tag => ?_, fun a ha e' tag hadd => ?_⟩
  · rw [ORSet.tagsOf_add, Finset.exists_mem_insert, ← h'.mem_tagsOf, adds_length_iff]
    by_cases he : e' = e
    · subst he
      rw [if_pos rfl, Finset.mem_insert]
      refine or_congr_left ⟨fun htag => ⟨node, rfl, htag⟩, ?_⟩
      rintro ⟨i, hx, htag⟩
      cases hx
      exact htag
    · rw [if_neg he, or_iff_right]
      rintro ⟨i, hx, -⟩
      cases hx
      exact he rfl
  · have hnot : ¬ Observes (acts ++ [.update node (.add e)]) acts.length tag := by
      rw [observes_length_iff]
      rintro ⟨i, e', hx, -⟩
      cases hx
    rw [Finset.exists_mem_insert, or_iff_right hnot]
    exact h'.mem_removes tag
  · show tag.2 < ((orSet.run acts).replica node).nextTag + 1
    rcases Finset.mem_insert.mp ha with rfl | ha
    · obtain ⟨i, hx, rfl⟩ := adds_length_iff.mp hadd
      cases hx
      exact Nat.lt_succ_self _
    · exact Nat.lt_succ_of_lt (h'.lt_nextTag a ha e' tag hadd)

theorem remove (h : TagsKnown acts node (causalHistory acts node)
    ((orSet.run acts).replica node)) (e : String) :
    TagsKnown (acts ++ [.update node (.remove e)]) node
      (insert acts.length (causalHistory acts node))
      (((orSet.run acts).replica node).remove e).2 := by
  have h' := h.extend (isPast_causalHistory acts node).lt (.update node (.remove e))
  have hadd : ∀ e' tag, ¬ Adds (acts ++ [.update node (.remove e)]) acts.length e' tag := by
    intro e' tag
    rw [adds_length_iff]
    rintro ⟨i, hx, -⟩
    cases hx
  have hobserves : ∀ tag, Observes (acts ++ [.update node (.remove e)]) acts.length tag ↔
      ((orSet.run acts).replica node).contains e = true ∧
        tag ∈ ((orSet.run acts).replica node).tagsOf e := by
    intro tag
    rw [observes_length_iff, h.mem_tagsOf]
    constructor
    · rintro ⟨i, e', hx, hremove⟩
      cases hx
      exact hremove
    · intro hremove
      exact ⟨node, e, rfl, hremove⟩
  rw [ORSet.remove_snd]
  refine ⟨?_, fun e' tag => ?_, fun tag => ?_, fun a ha e' tag hnew => ?_⟩
  · split_ifs <;> exact h.nodeId
  · rw [Finset.exists_mem_insert, or_iff_right (hadd e' tag), ← h'.mem_tagsOf]
    split_ifs <;> rfl
  · rw [Finset.exists_mem_insert, hobserves, ← h'.mem_removes]
    split_ifs with hcontains
    · rw [and_iff_right hcontains, Finset.mem_union, or_comm]
    · rw [or_iff_right fun hnew => hcontains hnew.1]
  · have ha : a ∈ causalHistory acts node :=
      (Finset.mem_insert.mp ha).resolve_left fun heq => hadd e' tag (heq ▸ hnew)
    have hlt := h'.lt_nextTag a ha e' tag hnew
    split_ifs <;> exact hlt

theorem merge (h : TagsKnown acts node H set) (hH : ∀ a ∈ H, a < acts.length) {j : String}
    (hother : TagsKnown acts j H' other) (hH' : ∀ a ∈ H', a < acts.length) (source : ℕ) :
    TagsKnown (acts ++ [.merge node source]) node (insert acts.length (H ∪ H'))
      (set.merge other) := by
  have h' := h.extend hH (.merge node source)
  have hother' := hother.extend hH' (.merge node source)
  have hadd : ∀ e tag, ¬ Adds (acts ++ [.merge node source]) acts.length e tag := by
    intro e tag
    rw [adds_length_iff]
    rintro ⟨i, hx, -⟩
    cases hx
  have hobserves : ∀ tag, ¬ Observes (acts ++ [.merge node source]) acts.length tag := by
    intro tag
    rw [observes_length_iff]
    rintro ⟨i, e, hx, -⟩
    cases hx
  refine ⟨h.nodeId, fun e tag => ?_, fun tag => ?_, fun a ha e tag hnew => ?_⟩
  · rw [Finset.exists_mem_insert, or_iff_right (hadd e tag), ORSet.tagsOf_merge, Finset.mem_union,
      h'.mem_tagsOf, hother'.mem_tagsOf]
    simp only [Finset.mem_union, or_and_right, exists_or]
  · show tag ∈ set.removes ∪ other.removes ↔ _
    rw [Finset.exists_mem_insert, or_iff_right (hobserves tag), Finset.mem_union,
      h'.mem_removes, hother'.mem_removes]
    simp only [Finset.mem_union, or_and_right, exists_or]
  · show tag.2 < max set.nextTag other.nextTag
    have ha := (Finset.mem_insert.mp ha).resolve_left fun heq => hadd e tag (heq ▸ hnew)
    rcases Finset.mem_union.mp ha with ha | ha
    · exact lt_max_of_lt_left (h'.lt_nextTag a ha e tag hnew)
    · exact lt_max_of_lt_right (hother'.lt_nextTag a ha e tag hnew)

end TagsKnown

/-- Every replica's fields are those of what it knows. -/
theorem tagsKnown_run (acts : List (Action String ORSetOp)) (i : String) :
    TagsKnown acts i (causalHistory acts i) ((orSet.run acts).replica i) := by
  refine (Replicated.run_induction (O := orSet) (P := TagsKnown) ?_ ?_ ?_ ?_ acts).1 i
  · intro acts i
    exact ⟨rfl, fun e tag => by simp [orSet, ORSet.tagsOf, Dict.getD],
      fun tag => by simp [orSet], fun a ha => absurd ha (Finset.notMem_empty a)⟩
  · intro acts x i H set hH h
    exact h.extend hH x
  · intro acts i op h
    cases op with
    | add e => exact h.add e
    | remove e => exact h.remove e
  · intro acts i source j other _ h hother
    exact h.merge (isPast_causalHistory acts i).lt hother (isPast_causalPast acts source).lt source

/-- An add attaches a tag of its own node. -/
theorem Adds.site_eq {acts : List (Action String ORSetOp)} {a : ℕ} {e : String} {tag : Tag}
    (h : Adds acts a e tag) : ∃ x, acts[a]? = some x ∧ x.site = tag.1 := by
  induction acts using List.reverseRecOn with
  | nil => exact absurd h.lt_length (Nat.not_lt_zero a)
  | append_singleton acts x ih =>
    rcases adds_append_singleton_iff.mp h with h | ⟨rfl, i, rfl, rfl⟩
    · obtain ⟨y, hy, hsite⟩ := ih h
      exact ⟨y, getElem?_append_singleton_eq_some.mpr (Or.inl hy), hsite⟩
    · exact ⟨_, List.getElem?_concat_length, (tagsKnown_run acts i).nodeId.symm⟩

/-- A new tag has not been attached before: a tag of the same node would be known to the replica,
whose counter is past it. -/
theorem not_adds_nextTag {acts : List (Action String ORSetOp)} {a : ℕ} {e i : String} :
    ¬ Adds acts a e (((orSet.run acts).replica i).nodeId,
      ((orSet.run acts).replica i).nextTag) := by
  intro h
  have hknown := tagsKnown_run acts i
  obtain ⟨x, hx, hsite⟩ := h.site_eq
  have hi : x.site = i := hsite.trans hknown.nodeId
  exact lt_irrefl _ (hknown.lt_nextTag a (hi ▸ mem_causalHistory_self hx) e _ h)

/-- **Tags are unique.** No two adds of a run attach the same tag. -/
theorem Adds.unique {acts : List (Action String ORSetOp)} {a b : ℕ} {e e' : String} {tag : Tag}
    (ha : Adds acts a e tag) (hb : Adds acts b e' tag) : a = b := by
  induction acts using List.reverseRecOn with
  | nil => exact absurd ha.lt_length (Nat.not_lt_zero a)
  | append_singleton acts x ih =>
    rcases adds_append_singleton_iff.mp ha with ha | ⟨rfl, i, -, rfl⟩
    · rcases adds_append_singleton_iff.mp hb with hb | ⟨rfl, i, -, rfl⟩
      · exact ih ha hb
      · exact absurd ha not_adds_nextTag
    · rcases adds_append_singleton_iff.mp hb with hb | ⟨rfl, -⟩
      · exact absurd hb not_adds_nextTag
      · rfl

/-- What a replica contains, without tags. -/
theorem contains_iff (acts : List (Action String ORSetOp)) (i e : String) :
    ((orSet.run acts).replica i).contains e = true ↔
      ∃ a ∈ causalHistory acts i, IsAdd acts a e ∧
        ∀ r ∈ causalHistory acts i, IsRemove acts r e → ¬ HappensBefore acts a r := by
  have h := tagsKnown_run acts i
  rw [ORSet.contains_eq_true_iff]
  constructor
  · rintro ⟨tag, htag, hlive⟩
    obtain ⟨a, ha, hadd⟩ := (h.mem_tagsOf e tag).mp htag
    refine ⟨a, ha, ⟨tag, hadd⟩, fun r hr hremove hbefore => hlive ?_⟩
    have hpast := (mem_causalPast_iff_happensBefore hremove.lt_length).mpr (Or.inr hbefore)
    exact (h.mem_removes tag).mpr ⟨r, hr, e, hremove, a, hpast, hadd⟩
  · rintro ⟨a, ha, ⟨tag, hadd⟩, hlive⟩
    refine ⟨tag, (h.mem_tagsOf e tag).mpr ⟨a, ha, hadd⟩, fun hremoved => ?_⟩
    obtain ⟨r, hr, e', hremove, b, hb, hadd'⟩ := (h.mem_removes tag).mp hremoved
    -- the tag tells the add, and with it the element that was removed
    obtain rfl := hadd.unique hadd'
    obtain ⟨rfl, -⟩ := hadd.eq_of_adds hadd'
    rcases (mem_causalPast_iff_happensBefore hremove.lt_length).mp hb with heq | hbefore
    · exact hadd.ne_of_isRemove hremove heq
    · exact hlive r hr hremove hbefore

/-- **The observed-remove set.** After every run of adds, removes and merges at any nodes, with
merged states as stale and repeated as they may be: a replica contains an element exactly when it
knows of an add of it that happened before no successful remove of it which the replica knows of;
and two replicas that know of the same adds and successful removes have the same elements. -/
theorem orSet_spec (acts : List (Action String ORSetOp)) :
    (∀ i e, ((orSet.run acts).replica i).contains e = true ↔
      ∃ a ∈ causalHistory acts i, IsAdd acts a e ∧
        ∀ r ∈ causalHistory acts i, IsRemove acts r e → ¬ HappensBefore acts a r) ∧
      ∀ i j, (∀ a e, IsAdd acts a e ∨ IsRemove acts a e →
          (a ∈ causalHistory acts i ↔ a ∈ causalHistory acts j)) →
        ((orSet.run acts).replica i).elements = ((orSet.run acts).replica j).elements := by
  refine ⟨contains_iff acts, fun i j hsame => ?_⟩
  ext e
  rw [ORSet.mem_elements_iff, ORSet.mem_elements_iff, contains_iff, contains_iff]
  refine exists_congr fun a => ?_
  constructor
  · rintro ⟨ha, hadd, hlive⟩
    exact ⟨(hsame a e (Or.inl hadd)).mp ha, hadd, fun r hr hremove =>
      hlive r ((hsame r e (Or.inr hremove)).mpr hr) hremove⟩
  · rintro ⟨ha, hadd, hlive⟩
    exact ⟨(hsame a e (Or.inl hadd)).mpr ha, hadd, fun r hr hremove =>
      hlive r ((hsame r e (Or.inr hremove)).mp hr) hremove⟩

end Relay
