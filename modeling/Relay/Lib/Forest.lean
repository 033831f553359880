import Mathlib.Data.Finset.Card
import Mathlib.Logic.Relation

/-!
# Forests of parents

A forest is given by the parent of each of its nodes, where a root is its own parent. Two nodes are
in one tree if they have the same root. Pointing a node at its root leaves all roots as they are,
and pointing a root at another one moves the nodes of the one tree to the other.

A rank that grows on the way up keeps the ways up finite. It also tells that a tree stays a tree,
since a root can then be told from the nodes below it.

## Main definitions

* `RootOf`: the root of a node
* `Ranked`: a rank that grows on the way up
* `Represents`: the trees are the classes of the equivalence that some pairs generate

## Main results

* `rootOf_compress_iff`, `rootOf_link_iff`, `rootOf_add_iff`: the roots after each operation
* `Represents.eq_iff`: the roots of two nodes agree exactly when the pairs connect the nodes
* `Represents.link`
-/

namespace Relay

namespace Forest

variable {α : Type*} {parent : α → Option α}

/-- The way up from a node ends in a root. -/
inductive RootOf (parent : α → Option α) : α → α → Prop
  | root {r : α} : parent r = some r → RootOf parent r r
  | step {a p r : α} : parent a = some p → RootOf parent p r → RootOf parent a r

section Roots

variable {a b p r s : α}

theorem RootOf.isRoot (h : RootOf parent a r) : parent r = some r := by
  induction h with
  | root hr => exact hr
  | step _ _ ih => exact ih

theorem RootOf.ne_none (h : RootOf parent a r) : parent a ≠ none := by
  cases h with
  | root hr => exact hr ▸ Option.some_ne_none _
  | step hp _ => exact hp ▸ Option.some_ne_none _

theorem RootOf.eq_of_isRoot (h : RootOf parent a r) (ha : parent a = some a) : r = a := by
  induction h with
  | root _ => rfl
  | step hp _ ih =>
    obtain rfl := Option.some.inj (hp.symm.trans ha)
    exact ih ha

/-- A node has one root. -/
theorem RootOf.unique (h : RootOf parent a r) (h' : RootOf parent a s) : r = s := by
  induction h with
  | root hr => exact (h'.eq_of_isRoot hr).symm
  | step hp _ ih =>
    cases h' with
    | root hs =>
      obtain rfl := Option.some.inj (hp.symm.trans hs)
      exact ih (RootOf.root hs)
    | step hp' hs =>
      obtain rfl := Option.some.inj (hp.symm.trans hp')
      exact ih hs

theorem RootOf.of_parent (h : RootOf parent a r) (hp : parent a = some p) : RootOf parent p r := by
  cases h with
  | root hr => exact Option.some.inj (hr.symm.trans hp) ▸ RootOf.root hr
  | step hp' hr => exact Option.some.inj (hp'.symm.trans hp) ▸ hr

end Roots

/-! ## Operations -/

section Operations

variable [DecidableEq α] {a b r s ra rb : α}

/-- Pointing a node at its root leaves all roots as they are. -/
theorem rootOf_compress_iff (h : RootOf parent a r) :
    RootOf (Function.update parent a (some r)) b s ↔ RootOf parent b s := by
  have hroot : Function.update parent a (some r) r = some r := by
    rw [Function.update_apply]
    split
    · rfl
    · exact h.isRoot
  constructor
  · intro h'
    induction h' with
    | @root s hs =>
      rcases eq_or_ne s a with rfl | hne
      · rw [Function.update_self] at hs
        exact Option.some.inj hs ▸ h
      · rw [Function.update_of_ne hne] at hs
        exact RootOf.root hs
    | @step b p s hp _ ih =>
      rcases eq_or_ne b a with rfl | hne
      · rw [Function.update_self] at hp
        obtain rfl := Option.some.inj hp
        exact ih.eq_of_isRoot h.isRoot ▸ h
      · rw [Function.update_of_ne hne] at hp
        exact RootOf.step hp ih
  · intro h'
    induction h' with
    | @root s hs =>
      rcases eq_or_ne s a with rfl | hne
      · obtain rfl := h.eq_of_isRoot hs
        exact RootOf.root hroot
      · exact RootOf.root ((Function.update_of_ne hne _ _).trans hs)
    | @step b p s hp hs ih =>
      rcases eq_or_ne b a with rfl | hne
      · obtain rfl := h.unique (RootOf.step hp hs)
        exact RootOf.step (Function.update_self _ _ _) (RootOf.root hroot)
      · exact RootOf.step ((Function.update_of_ne hne _ _).trans hp) ih

/-- Pointing a root at another one moves the nodes of its tree to the other. -/
theorem rootOf_link_iff (hra : parent ra = some ra) (hrb : parent rb = some rb) (hne : ra ≠ rb) :
    RootOf (Function.update parent rb (some ra)) b s ↔
      ∃ t, RootOf parent b t ∧ s = if t = rb then ra else t := by
  have hroot : Function.update parent rb (some ra) ra = some ra :=
    (Function.update_of_ne hne _ _).trans hra
  constructor
  · intro h
    induction h with
    | @root s hs =>
      rcases eq_or_ne s rb with rfl | hs'
      · rw [Function.update_self] at hs
        exact absurd (Option.some.inj hs) hne
      · rw [Function.update_of_ne hs'] at hs
        exact ⟨s, RootOf.root hs, (if_neg hs').symm⟩
    | @step b p s hp _ ih =>
      obtain ⟨t, ht, rfl⟩ := ih
      rcases eq_or_ne b rb with rfl | hb
      · rw [Function.update_self] at hp
        obtain rfl := Option.some.inj hp
        obtain rfl := ht.eq_of_isRoot hra
        exact ⟨b, RootOf.root hrb, by rw [if_neg hne, if_pos rfl]⟩
      · rw [Function.update_of_ne hb] at hp
        exact ⟨t, RootOf.step hp ht, rfl⟩
  · rintro ⟨t, ht, rfl⟩
    induction ht with
    | @root t ht =>
      split
      · next heq =>
        subst heq
        exact RootOf.step (Function.update_self _ _ _) (RootOf.root hroot)
      · next hne => exact RootOf.root ((Function.update_of_ne hne _ _).trans ht)
    | @step b p t hp ht ih =>
      rcases eq_or_ne b rb with rfl | hb
      · obtain rfl := Option.some.inj (hrb.symm.trans hp)
        exact ih
      · exact RootOf.step ((Function.update_of_ne hb _ _).trans hp) ih

/-- A new root is alone in its tree. -/
theorem rootOf_add_iff (ha : parent a = none) (hclosed : ∀ b p, parent b = some p → p ≠ a) :
    RootOf (Function.update parent a (some a)) b s ↔ RootOf parent b s ∨ b = a ∧ s = a := by
  constructor
  · intro h
    induction h with
    | @root s hs =>
      rcases eq_or_ne s a with rfl | hne
      · exact Or.inr ⟨rfl, rfl⟩
      · rw [Function.update_of_ne hne] at hs
        exact Or.inl (RootOf.root hs)
    | @step b p s hp _ ih =>
      rcases eq_or_ne b a with rfl | hne
      · rw [Function.update_self] at hp
        exact Option.some.inj hp ▸ ih
      · rw [Function.update_of_ne hne] at hp
        exact ih.imp (RootOf.step hp) fun h => absurd h.1 (hclosed b p hp)
  · rintro (h | ⟨rfl, rfl⟩)
    · induction h with
      | @root s hs =>
        have hne : s ≠ a := fun heq => nomatch (heq ▸ hs).symm.trans ha
        exact RootOf.root ((Function.update_of_ne hne _ _).trans hs)
      | @step b p s hp _ ih =>
        have hne : b ≠ a := fun heq => nomatch (heq ▸ hp).symm.trans ha
        exact RootOf.step ((Function.update_of_ne hne _ _).trans hp) ih
    · exact RootOf.root (Function.update_self _ _ _)

end Operations

/-! ## Ranks -/

section Ranks

variable {rank : α → ℤ} {a p r : α}

/-- The rank grows on the way up. -/
def Ranked (parent : α → Option α) (rank : α → ℤ) : Prop :=
  ∀ a p, parent a = some p → p ≠ a → rank a < rank p

theorem Ranked.le (h : Ranked parent rank) (hr : RootOf parent a r) : rank a ≤ rank r := by
  induction hr with
  | root _ => exact le_refl _
  | @step a p r hp _ ih =>
    rcases eq_or_ne p a with rfl | hne
    · exact ih
    · exact (h a p hp hne).le.trans ih

theorem Ranked.lt (h : Ranked parent rank) (hr : RootOf parent a r) (hne : a ≠ r) :
    rank a < rank r := by
  induction hr with
  | root _ => exact absurd rfl hne
  | @step a p r hp hr ih =>
    rcases eq_or_ne p a with rfl | hpa
    · exact ih hne
    · exact (h a p hp hpa).trans_le (h.le hr)

/-- On the way up, fewer nodes have a greater rank. -/
theorem card_filter_lt (nodes : Finset α) (hp : p ∈ nodes) (hlt : rank a < rank p) :
    (nodes.filter (rank p < rank ·)).card < (nodes.filter (rank a < rank ·)).card := by
  refine Finset.card_lt_card ((Finset.ssubset_iff_of_subset fun b hb => ?_).mpr ⟨p, ?_, ?_⟩)
  · rw [Finset.mem_filter] at hb ⊢
    exact ⟨hb.1, hlt.trans hb.2⟩
  · exact Finset.mem_filter.mpr ⟨hp, hlt⟩
  · exact fun hmem => lt_irrefl _ (Finset.mem_filter.mp hmem).2

end Ranks

/-! ## Classes -/

/-- The trees are the classes of the equivalence that the pairs generate. -/
structure Represents (pairs : α → α → Prop) (parent : α → Option α) : Prop where
  sound : ∀ a r, RootOf parent a r → Relation.EqvGen pairs a r
  complete : ∀ a b, pairs a b → ∃ r, RootOf parent a r ∧ RootOf parent b r

section Classes

variable {pairs pairs' : α → α → Prop} {parent' : α → Option α} {a b x y r s : α}

/-- **Roots and classes.** The roots of two nodes agree exactly when the pairs connect the nodes. -/
theorem Represents.eq_iff (h : Represents pairs parent) (ha : RootOf parent a r)
    (hb : RootOf parent b s) : r = s ↔ Relation.EqvGen pairs a b := by
  constructor
  · rintro rfl
    exact (h.sound a r ha).trans _ _ _ (Relation.EqvGen.symm _ _ (h.sound b r hb))
  · intro hab
    have hsame : Equivalence fun a b => ∀ r, RootOf parent a r ↔ RootOf parent b r :=
      ⟨fun _ _ => Iff.rfl, fun h r => (h r).symm, fun h h' r => (h r).trans (h' r)⟩
    have hpair : ∀ a b, pairs a b → ∀ r, RootOf parent a r ↔ RootOf parent b r := by
      intro a b hab r
      obtain ⟨t, hat, hbt⟩ := h.complete a b hab
      exact ⟨fun har => hat.unique har ▸ hbt, fun hbr => hbt.unique hbr ▸ hat⟩
    have hroots := (hsame.eqvGen_iff).mp (hab.mono hpair)
    exact ha.unique ((hroots s).mpr hb)

/-- What the trees represent depends on the roots only. -/
theorem Represents.congr (h : Represents pairs parent)
    (hroots : ∀ a r, RootOf parent' a r ↔ RootOf parent a r) : Represents pairs parent' := by
  refine ⟨fun a r hr => h.sound a r ((hroots a r).mp hr), fun a b hab => ?_⟩
  obtain ⟨r, ha, hb⟩ := h.complete a b hab
  exact ⟨r, (hroots a r).mpr ha, (hroots b r).mpr hb⟩

theorem Represents.add [DecidableEq α] (h : Represents pairs parent) (ha : parent a = none)
    (hclosed : ∀ b p, parent b = some p → p ≠ a) :
    Represents pairs (Function.update parent a (some a)) := by
  refine ⟨fun b s hs => ?_, fun b c hbc => ?_⟩
  · rcases (rootOf_add_iff ha hclosed).mp hs with hs | ⟨rfl, rfl⟩
    · exact h.sound b s hs
    · exact Relation.EqvGen.refl _
  · obtain ⟨s, hb, hc⟩ := h.complete b c hbc
    exact ⟨s, (rootOf_add_iff ha hclosed).mpr (Or.inl hb),
      (rootOf_add_iff ha hclosed).mpr (Or.inl hc)⟩

/-- More pairs, which connect nothing but `x` and `y` in addition. -/
structure Joins (pairs pairs' : α → α → Prop) (x y : α) : Prop where
  of_pairs : ∀ a b, pairs a b → pairs' a b
  joined : Relation.EqvGen pairs' x y
  eq_or : ∀ a b, pairs' a b → pairs a b ∨ a = x ∧ b = y ∨ a = y ∧ b = x

theorem Joins.symm (h : Joins pairs pairs' x y) : Joins pairs pairs' y x :=
  ⟨h.of_pairs, h.joined.symm, fun a b hab => (h.eq_or a b hab).imp_right Or.symm⟩

theorem Represents.join (h : Represents pairs parent) (hjoins : Joins pairs pairs' x y)
    (hx : RootOf parent x r) (hy : RootOf parent y r) : Represents pairs' parent := by
  refine ⟨fun a s hs => (h.sound a s hs).mono hjoins.of_pairs, fun a b hab => ?_⟩
  rcases hjoins.eq_or a b hab with hab | ⟨rfl, rfl⟩ | ⟨rfl, rfl⟩
  · exact h.complete a b hab
  · exact ⟨r, hx, hy⟩
  · exact ⟨r, hy, hx⟩

/-- Two trees are made one by pointing the root of the one at the root of the other. -/
theorem Represents.link [DecidableEq α] (h : Represents pairs parent)
    (hjoins : Joins pairs pairs' x y) (hx : RootOf parent x r) (hy : RootOf parent y s)
    (hne : r ≠ s) : Represents pairs' (Function.update parent s (some r)) := by
  have hlink : ∀ {b t}, RootOf (Function.update parent s (some r)) b t ↔
      ∃ u, RootOf parent b u ∧ t = if u = s then r else u :=
    rootOf_link_iff hx.isRoot hy.isRoot hne
  have hxr : Relation.EqvGen pairs' x r := (h.sound x r hx).mono hjoins.of_pairs
  have hys : Relation.EqvGen pairs' y s := (h.sound y s hy).mono hjoins.of_pairs
  have hx' : RootOf (Function.update parent s (some r)) x r := hlink.mpr ⟨r, hx, (if_neg hne).symm⟩
  have hy' : RootOf (Function.update parent s (some r)) y r := hlink.mpr ⟨s, hy, (if_pos rfl).symm⟩
  refine ⟨fun a t ht => ?_, fun a b hab => ?_⟩
  · obtain ⟨u, hu, rfl⟩ := hlink.mp ht
    have hau : Relation.EqvGen pairs' a u := (h.sound a u hu).mono hjoins.of_pairs
    split
    · next heq =>
      exact hau.trans _ _ _ (heq ▸ hys.symm.trans _ _ _ (hjoins.joined.symm.trans _ _ _ hxr))
    · exact hau
  · rcases hjoins.eq_or a b hab with hab | ⟨rfl, rfl⟩ | ⟨rfl, rfl⟩
    · obtain ⟨u, ha, hb⟩ := h.complete a b hab
      exact ⟨_, hlink.mpr ⟨u, ha, rfl⟩, hlink.mpr ⟨u, hb, rfl⟩⟩
    · exact ⟨r, hx', hy'⟩
    · exact ⟨r, hy', hx'⟩

end Classes

end Forest

end Relay
