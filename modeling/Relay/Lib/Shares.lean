import Mathlib.Algebra.BigOperators.Ring.Finset
import Mathlib.Algebra.Group.Action.Defs
import Mathlib.Algebra.Order.BigOperators.Group.Finset

/-!
# Sharing things out evenly

Things are shared out to members, each thing to one of them, and the members' loads differ by at
most one. The things had owners before, and it is wanted that few of them change hands. A thing
whose owner is not among the members has to go to somebody anyhow and does not count.

A member with more things than its load has to give the surplus up. That is a lower bound on what
changes hands, and it is reached if no member takes things over while it gives some up (`Sticky`).
What is left to choose is which members get one thing more than the others, and the choice matters
only in so far as it falls on members that have a surplus without it.

## Main definitions

* `Shares.load`: how many things a member has
* `Shares.Even`: the things are shared out, and loads differ by at most one
* `Shares.relocated`: how many things change hands between members
* `Shares.extra`: the members with one thing more than the others

## Main results

* `Even.card_extra`: how many members have one more than the others
* `Sticky.relocated_eq`: a sticky share relocates what members have too much, and nothing else
* `Even.sum_sub_add`: how much that is, from the choice of the members with one more
* `relocated_le_iff`: when such a share relocates as little as any
-/

namespace Relay

namespace Shares

variable {π μ : Type*} [DecidableEq μ] (P : Finset π) (M : Finset μ)

/-- How many things a member has. -/
def load (f : π → Option μ) (m : μ) : ℕ := (P.filter fun p => f p = some m).card

/-- How many things of members change hands. -/
def relocated (prev f : π → Option μ) : ℕ :=
  (P.filter fun p => ∃ m ∈ M, prev p = some m ∧ f p ≠ some m).card

/-- Everything goes to a member, and no member has two things more than another. -/
structure Even (f : π → Option μ) : Prop where
  covers : ∀ p ∈ P, ∃ m ∈ M, f p = some m
  level : ∀ m ∈ M, ∀ m' ∈ M, load P f m ≤ load P f m' + 1

/-- A member that gives something up has nothing it did not have before. -/
def Sticky (prev f : π → Option μ) : Prop :=
  ∀ m ∈ M, (∃ p ∈ P, prev p = some m ∧ f p ≠ some m) → ∀ p ∈ P, f p = some m → prev p = some m

/-- The members with one thing more than the others. -/
def extra (f : π → Option μ) : Finset μ := M.filter fun m => load P f m = P.card / M.card + 1

variable {P M} {prev f g : π → Option μ}

/-! ### Loads -/

theorem sum_load (h : ∀ p ∈ P, ∃ m ∈ M, f p = some m) : ∑ m ∈ M, load P f m = P.card := by
  have hmaps : Set.MapsTo f P (M.image some) := by
    intro p hp
    obtain ⟨m, hm, hpm⟩ := h p hp
    exact Finset.mem_coe.mpr (Finset.mem_image.mpr ⟨m, hm, hpm.symm⟩)
  rw [Finset.card_eq_sum_card_fiberwise hmaps, Finset.sum_image fun m _ m' _ => Option.some.inj]
  rfl

/-- Loads are what everybody gets, or one more. -/
theorem Even.le_load (h : Even P M f) {m : μ} (hm : m ∈ M) :
    P.card / M.card ≤ load P f m ∧ load P f m ≤ P.card / M.card + 1 := by
  have hsum := sum_load h.covers
  have hpos : 0 < M.card := Finset.card_pos.mpr ⟨m, hm⟩
  constructor
  · by_contra hlt
    rw [not_le] at hlt
    -- then nobody has more than everybody gets, and not all of them have that
    have htotal : ∑ m' ∈ M, load P f m' < ∑ m' ∈ M, P.card / M.card :=
      Finset.sum_lt_sum (fun m' hm' => (h.level m' hm' m hm).trans hlt) ⟨m, hm, hlt⟩
    rw [hsum, Finset.sum_const, smul_eq_mul] at htotal
    exact absurd (Nat.mul_div_le P.card M.card) htotal.not_ge
  · by_contra hlt
    rw [not_le] at hlt
    have htotal : ∑ m' ∈ M, (P.card / M.card + 1) < ∑ m' ∈ M, load P f m' :=
      Finset.sum_lt_sum
        (fun m' hm' => Nat.le_of_lt_succ (hlt.trans_le (h.level m hm m' hm'))) ⟨m, hm, hlt⟩
    rw [hsum, Finset.sum_const, smul_eq_mul] at htotal
    exact absurd (Nat.lt_mul_div_succ P.card hpos) htotal.not_gt

theorem mem_extra {m : μ} : m ∈ extra P M f ↔ m ∈ M ∧ load P f m = P.card / M.card + 1 :=
  Finset.mem_filter

theorem Even.load_eq (h : Even P M f) {m : μ} (hm : m ∈ M) :
    load P f m = P.card / M.card + if m ∈ extra P M f then 1 else 0 := by
  obtain ⟨hle, hle'⟩ := h.le_load hm
  split
  · next hextra => exact (mem_extra.mp hextra).2
  · next hextra =>
    have hne : load P f m ≠ P.card / M.card + 1 := fun heq => hextra (mem_extra.mpr ⟨hm, heq⟩)
    omega

/-- As many members have one more as there are things left over. -/
theorem Even.card_extra (h : Even P M f) :
    (extra P M f).card = P.card % M.card := by
  have hsum := sum_load h.covers
  rw [Finset.sum_congr rfl fun m hm => h.load_eq hm, Finset.sum_add_distrib, Finset.sum_const,
    smul_eq_mul, ← Finset.card_filter] at hsum
  have hfilter : M.filter (· ∈ extra P M f) = extra P M f :=
    Finset.filter_mem_eq_inter.trans (Finset.inter_eq_right.mpr (Finset.filter_subset _ M))
  have hdiv := Nat.div_add_mod P.card M.card
  rw [hfilter] at hsum
  omega

/-! ### What changes hands -/

theorem relocated_eq_sum (P : Finset π) (M : Finset μ) (prev f : π → Option μ) :
    relocated P M prev f =
      ∑ m ∈ M, (P.filter fun p => prev p = some m ∧ f p ≠ some m).card := by
  have hmaps : Set.MapsTo prev (P.filter fun p => ∃ m ∈ M, prev p = some m ∧ f p ≠ some m)
      (M.image some) := by
    intro p hp
    obtain ⟨-, m, hm, hpm, -⟩ := Finset.mem_filter.mp (Finset.mem_coe.mp hp)
    exact Finset.mem_coe.mpr (Finset.mem_image.mpr ⟨m, hm, hpm.symm⟩)
  rw [relocated, Finset.card_eq_sum_card_fiberwise hmaps,
    Finset.sum_image fun m _ m' _ => Option.some.inj]
  refine Finset.sum_congr rfl fun m hm => congrArg Finset.card ?_
  ext p
  simp only [Finset.mem_filter]
  constructor
  · rintro ⟨⟨hp, m', -, hpm', hne⟩, hpm⟩
    obtain rfl := Option.some.inj (hpm'.symm.trans hpm)
    exact ⟨hp, hpm, hne⟩
  · rintro ⟨hp, hpm, hne⟩
    exact ⟨⟨hp, m, hm, hpm, hne⟩, hpm⟩

/-- What a member had is what it gives up and what it keeps. -/
theorem load_eq_add (P : Finset π) (prev f : π → Option μ) (m : μ) :
    load P prev m = (P.filter fun p => prev p = some m ∧ f p ≠ some m).card +
      (P.filter fun p => prev p = some m ∧ f p = some m).card := by
  rw [load, ← Finset.card_filter_add_card_filter_not (s := P.filter fun p => prev p = some m)
    (fun p => f p ≠ some m), Finset.filter_filter, Finset.filter_filter]
  simp only [not_not]

theorem card_kept_le (P : Finset π) (prev f : π → Option μ) (m : μ) :
    (P.filter fun p => prev p = some m ∧ f p = some m).card ≤ load P f m :=
  Finset.card_le_card (Finset.monotone_filter_right P fun _ _ h => h.2)

/-- **A surplus has to go.** -/
theorem sum_sub_le_relocated (P : Finset π) (M : Finset μ) (prev f : π → Option μ) :
    ∑ m ∈ M, (load P prev m - load P f m) ≤ relocated P M prev f := by
  rw [relocated_eq_sum]
  refine Finset.sum_le_sum fun m _ => ?_
  have hsplit := load_eq_add P prev f m
  have hkept := card_kept_le P prev f m
  omega

/-- A sticky share gives up nothing else. -/
theorem Sticky.relocated_eq (h : Sticky P M prev f) :
    relocated P M prev f = ∑ m ∈ M, (load P prev m - load P f m) := by
  rw [relocated_eq_sum]
  refine Finset.sum_congr rfl fun m hm => ?_
  have hsplit := load_eq_add P prev f m
  have hkept := card_kept_le P prev f m
  by_cases hlost : ∃ p ∈ P, prev p = some m ∧ f p ≠ some m
  · have hall : (P.filter fun p => prev p = some m ∧ f p = some m).card = load P f m :=
      congrArg Finset.card (Finset.filter_congr fun p hp =>
        ⟨fun hp => hp.2, fun hpm => ⟨h m hm hlost p hp hpm, hpm⟩⟩)
    omega
  · have hnone : (P.filter fun p => prev p = some m ∧ f p ≠ some m).card = 0 :=
      Finset.card_eq_zero.mpr (Finset.filter_eq_empty_iff.mpr fun p hp hlose =>
        hlost ⟨p, hp, hlose⟩)
    omega

/-- The surplus of all members, by who has one thing more than the others. -/
theorem Even.sum_sub_add (h : Even P M f) (prev : π → Option μ) :
    ∑ m ∈ M, (load P prev m - load P f m) +
        ((extra P M f).filter fun m => P.card / M.card < load P prev m).card =
      ∑ m ∈ M, (load P prev m - P.card / M.card) := by
  have hextra : (extra P M f).filter (fun m => P.card / M.card < load P prev m) =
      M.filter fun m => m ∈ extra P M f ∧ P.card / M.card < load P prev m := by
    ext m
    rw [Finset.mem_filter, Finset.mem_filter]
    exact ⟨fun hm => ⟨(mem_extra.mp hm.1).1, hm⟩, fun hm => hm.2⟩
  rw [hextra, Finset.card_filter, ← Finset.sum_add_distrib]
  refine Finset.sum_congr rfl fun m hm => ?_
  rw [h.load_eq hm]
  by_cases hone : m ∈ extra P M f <;> by_cases hsurplus : P.card / M.card < load P prev m
  · simp only [hone, hsurplus, and_self, if_true]
    omega
  · simp only [hone, hsurplus, and_false, if_true, if_false]
    omega
  · simp only [hone, false_and, if_false]
    omega
  · simp only [hone, false_and, if_false]
    omega

/-- **When a sticky share is as good as any.** If a sticky share can be made for any choice of the
members that get one thing more, then one relocates no more than every even share exactly when its
choice falls on members with a surplus only, or on all of them. -/
theorem relocated_le_iff (hg : Even P M g) (hsticky : Sticky P M prev g)
    (hexists : ∀ E ⊆ M, E.card = P.card % M.card →
      ∃ f, Even P M f ∧ Sticky P M prev f ∧ extra P M f = E) :
    (∀ f, Even P M f → relocated P M prev g ≤ relocated P M prev f) ↔
      (∀ m ∈ extra P M g, P.card / M.card < load P prev m) ∨
        ∀ m ∈ M, m ∉ extra P M g → load P prev m ≤ P.card / M.card := by
  have hsum := hg.sum_sub_add prev
  rw [← hsticky.relocated_eq] at hsum
  constructor
  · intro hbest
    by_contra hnot
    simp only [not_or, not_forall, not_lt, not_le] at hnot
    obtain ⟨⟨m, hm, hnone⟩, m', hm', hout, hsurplus⟩ := hnot
    -- the one more goes from a member without a surplus to one with a surplus
    have hout' : m' ∉ (extra P M g).erase m := fun h => hout (Finset.mem_of_mem_erase h)
    obtain ⟨f, hf, hfsticky, hextra⟩ := hexists (insert m' ((extra P M g).erase m))
      (Finset.insert_subset hm' ((Finset.erase_subset _ _).trans (Finset.filter_subset _ M)))
      (by rw [Finset.card_insert_of_notMem hout', Finset.card_erase_add_one hm, hg.card_extra])
    have hsum' := hf.sum_sub_add prev
    have hkept : m ∉ (extra P M g).filter fun m => P.card / M.card < load P prev m :=
      fun h => absurd (Finset.mem_filter.mp h).2 hnone.not_gt
    have hnew : m' ∉ (extra P M g).filter fun m => P.card / M.card < load P prev m :=
      fun h => hout (Finset.mem_filter.mp h).1
    rw [← hfsticky.relocated_eq, hextra, Finset.filter_insert, if_pos hsurplus,
      Finset.filter_erase, Finset.erase_eq_of_notMem hkept,
      Finset.card_insert_of_notMem hnew] at hsum'
    have hle := hbest f hf
    omega
  · intro hchoice f hf
    have hsum' := hf.sum_sub_add prev
    have hle := sum_sub_le_relocated P M prev f
    have hfewer : ((extra P M f).filter fun m => P.card / M.card < load P prev m).card ≤
        ((extra P M g).filter fun m => P.card / M.card < load P prev m).card := by
      rcases hchoice with hall | hnone
      · rw [Finset.filter_true_of_mem hall, hg.card_extra, ← hf.card_extra]
        exact Finset.card_filter_le _ _
      · refine Finset.card_le_card fun m hm => ?_
        obtain ⟨hextra, hsurplus⟩ := Finset.mem_filter.mp hm
        refine Finset.mem_filter.mpr ⟨?_, hsurplus⟩
        by_contra hout
        exact absurd hsurplus (hnone m (mem_extra.mp hextra).1 hout).not_gt
    omega

end Shares

end Relay
