import Mathlib.Algebra.Order.Ring.Int
import Mathlib.Data.List.Chain
import Relay.Errors
import Relay.Lib.Heads

/-!
# Merge iterator

Several sorted streams are merged into one by taking the smallest of their heads, the first of
those that are equal, and moving the cursor of its stream. If duplicates are left out, a value that
has just been taken is taken no second time.

With a cursor in every stream, what is left of the streams are lists of which the least head is
taken (`rests`). Every round takes one element off, so the loop ends, and its output is a merged
list, or what is kept of one when equal values are left out.

## Scope

The report on how many elements were collapsed is left out.

## Main definitions

* `merge`, with `checkSorted`, `smallestHead` and `mergeLoop`

## Main results

* `smallestHead_spec`: what the loop over the streams chooses
* `mergeLoop_merged`: the output is a merged list
* `merge_spec`: when a merge raises, and what it returns otherwise
-/

namespace Relay

namespace MergeIterator

/-- `_check_sorted`, from a position on. -/
def checkSorted (idx : ℕ) : ℕ → List ℤ → Except RelayError Unit
  | _, [] => .ok ()
  | _, [_] => .ok ()
  | i, a :: b :: stream =>
    if b < a then
      .error (.invalid (s!"input {idx} is not sorted at position {i}; a merge over it "
        ++ "produces an unsorted output a later binary search misreads"))
    else checkSorted idx (i + 1) (b :: stream)

/-- The loop of `merge` that checks the streams, from one of them on. -/
def checkAll : ℕ → List (List ℤ) → Except RelayError Unit
  | _, [] => .ok ()
  | idx, stream :: streams => do
    checkSorted idx 1 stream
    checkAll (idx + 1) streams

/-- One round of the inner loop of `merge`: a head takes the place of the best one so far if it is
smaller. -/
def better (i : ℕ) (best : Option (ℤ × ℕ)) : Option ℤ → Option (ℤ × ℕ)
  | none => best
  | some head =>
    match best with
    | none => some (head, i)
    | some (smallest, chosen) => if head < smallest then some (head, i) else some (smallest, chosen)

/-- The inner loop of `merge`: the smallest head, and the stream that it was found in first. -/
def smallestHead : List (List ℤ) → List ℕ → ℕ → Option (ℤ × ℕ) → Option (ℤ × ℕ)
  | stream :: streams, cursor :: cursors, i, best =>
    smallestHead streams cursors (i + 1) (better i best stream[cursor]?)
  | _, _, _, best => best

/-- What is left of the streams. -/
def rests (streams : List (List ℤ)) (cursors : List ℕ) : List (List ℤ) :=
  List.zipWith (fun stream cursor => stream.drop cursor) streams cursors

/-! ### Choosing a head -/

theorem rests_cons (stream : List ℤ) (streams : List (List ℤ)) (cursor : ℕ) (cursors : List ℕ) :
    rests (stream :: streams) (cursor :: cursors) = stream.drop cursor :: rests streams cursors :=
  rfl

/-- The best of what there was and the heads of some lists, which stand from a place on. -/
structure Chosen (rests : List (List ℤ)) (i : ℕ) (best : Option (ℤ × ℕ)) (smallest : ℤ)
    (chosen : ℕ) : Prop where
  found : best = some (smallest, chosen) ∨
    ∃ k tail, chosen = i + k ∧ rests[k]? = some (smallest :: tail)
  least_best : ∀ b ∈ best, smallest ≤ b.1
  least : ∀ r ∈ rests, ∀ x ∈ r.head?, smallest ≤ x

/-- A head is better than what there was, or that is no larger than the head. -/
theorem better_cases (i : ℕ) (best : Option (ℤ × ℕ)) (head : ℤ) :
    (better i best (some head) = some (head, i) ∧ ∀ b ∈ best, head ≤ b.1) ∨
      ∃ b, best = some b ∧ better i best (some head) = some b ∧ b.1 ≤ head := by
  cases best with
  | none => exact Or.inl ⟨rfl, fun b hb => (by cases hb)⟩
  | some b =>
    rw [better]
    split
    · next hlt =>
      refine Or.inl ⟨rfl, fun b' hb => ?_⟩
      obtain rfl := Option.some.inj hb
      exact hlt.le
    · next hle => exact Or.inr ⟨b, rfl, rfl, not_lt.mp hle⟩

theorem Chosen.cons {rest : List ℤ} {rests : List (List ℤ)} {i : ℕ} {best : Option (ℤ × ℕ)}
    {smallest : ℤ} {chosen : ℕ}
    (h : Chosen rests (i + 1) (better i best rest.head?) smallest chosen) :
    Chosen (rest :: rests) i best smallest chosen := by
  have hlater {k : ℕ} {tail : List ℤ} (hchosen : chosen = i + 1 + k)
      (hk : rests[k]? = some (smallest :: tail)) :
      ∃ k tail, chosen = i + k ∧ (rest :: rests)[k]? = some (smallest :: tail) :=
    ⟨k + 1, tail, by omega, hk⟩
  have hfound := h.found
  have hleast := h.least_best
  cases rest with
  | nil =>
    refine ⟨?_, hleast, List.forall_mem_cons.mpr ⟨fun x hx => (by cases hx), h.least⟩⟩
    exact hfound.imp_right fun ⟨k, tail, hchosen, hk⟩ => hlater hchosen hk
  | cons head tail =>
    rw [List.head?_cons] at hfound hleast
    rcases better_cases i best head with ⟨hbetter, hbest⟩ | ⟨b, rfl, hbetter, hbest⟩
    · rw [hbetter] at hfound hleast
      have hhead : smallest ≤ head := hleast _ rfl
      refine ⟨Or.inr ?_, fun b hb => hhead.trans (hbest b hb),
        List.forall_mem_cons.mpr ⟨fun x hx => ?_, h.least⟩⟩
      · rcases hfound with hfound | ⟨k, tail', hchosen, hk⟩
        · obtain ⟨rfl, rfl⟩ := Prod.mk.inj (Option.some.inj hfound)
          exact ⟨0, tail, rfl, rfl⟩
        · exact hlater hchosen hk
      · obtain rfl := Option.some.inj hx
        exact hhead
    · rw [hbetter] at hfound hleast
      refine ⟨hfound.imp_right fun ⟨k, tail, hchosen, hk⟩ => hlater hchosen hk, hleast,
        List.forall_mem_cons.mpr ⟨fun x hx => ?_, h.least⟩⟩
      obtain rfl := Option.some.inj hx
      exact (hleast b rfl).trans hbest

/-- **What the loop over the streams chooses.** -/
theorem smallestHead_spec (streams : List (List ℤ)) (cursors : List ℕ) (i : ℕ)
    (best : Option (ℤ × ℕ)) :
    (smallestHead streams cursors i best = none →
      best = none ∧ ∀ r ∈ rests streams cursors, r = []) ∧
    ∀ smallest chosen, smallestHead streams cursors i best = some (smallest, chosen) →
      Chosen (rests streams cursors) i best smallest chosen := by
  have hend (i : ℕ) (best : Option (ℤ × ℕ)) : (best = none → best = none ∧
      ∀ r ∈ ([] : List (List ℤ)), r = []) ∧ ∀ smallest chosen, best = some (smallest, chosen) →
        Chosen [] i best smallest chosen := by
    refine ⟨fun h => ⟨h, by simp⟩, ?_⟩
    rintro smallest chosen rfl
    exact ⟨Or.inl rfl, by simp, by simp⟩
  induction streams generalizing cursors i best with
  | nil => exact hend i best
  | cons stream streams ih =>
    cases cursors with
    | nil => exact hend i best
    | cons cursor cursors =>
      have hhead : stream[cursor]? = (stream.drop cursor).head? := List.head?_drop.symm
      rw [smallestHead, rests_cons, hhead]
      obtain ⟨hnone, hsome⟩ := ih cursors (i + 1) (better i best (stream.drop cursor).head?)
      refine ⟨fun h => ?_, fun smallest chosen h => (hsome smallest chosen h).cons⟩
      obtain ⟨hbetter, hempty⟩ := hnone h
      cases hrest : stream.drop cursor with
      | nil =>
        rw [hrest] at hbetter
        exact ⟨hbetter, List.forall_mem_cons.mpr ⟨rfl, hempty⟩⟩
      | cons head tail =>
        rw [hrest, List.head?_cons] at hbetter
        rcases better_cases i best head with ⟨hsome, -⟩ | ⟨b, -, hsome, -⟩
        · cases hbetter.symm.trans hsome
        · cases hbetter.symm.trans hsome

/-- The head that is chosen, and its cursor moved on. -/
theorem rests_modify {streams : List (List ℤ)} {cursors : List ℕ} {k : ℕ} {smallest : ℤ}
    {tail : List ℤ} (h : (rests streams cursors)[k]? = some (smallest :: tail)) :
    rests streams (cursors.modify k (· + 1)) = (rests streams cursors).set k tail := by
  induction streams generalizing cursors k with
  | nil => cases h
  | cons stream streams ih =>
    cases cursors with
    | nil => cases h
    | cons cursor cursors =>
      rw [rests_cons] at h ⊢
      cases k with
      | zero =>
        have hdrop : stream.drop cursor = smallest :: tail := Option.some.inj h
        rw [List.modify_zero_cons, rests_cons, List.set_cons_zero, ← List.drop_drop, hdrop]
        rfl
      | succ k =>
        rw [List.getElem?_cons_succ] at h
        rw [List.modify_succ_cons, rests_cons, List.set_cons_succ, ih h]

/-- The choice of a round, and what it does to what is left. -/
theorem smallestHead_step {streams : List (List ℤ)} {cursors : List ℕ} {smallest : ℤ} {chosen : ℕ}
    (h : smallestHead streams cursors 0 none = some (smallest, chosen)) :
    ∃ tail, (rests streams cursors)[chosen]? = some (smallest :: tail) ∧
      rests streams (cursors.modify chosen (· + 1)) = (rests streams cursors).set chosen tail ∧
      ∀ r ∈ rests streams cursors, ∀ x ∈ r.head?, smallest ≤ x := by
  have hchosen := (smallestHead_spec streams cursors 0 none).2 smallest chosen h
  rcases hchosen.found with hnone | ⟨k, tail, rfl, hk⟩
  · cases hnone
  · rw [Nat.zero_add] at *
    exact ⟨tail, hk, rests_modify hk, hchosen.least⟩

/-- How many elements are left. -/
def remaining (streams : List (List ℤ)) (cursors : List ℕ) : ℕ :=
  (rests streams cursors).flatten.length

theorem remaining_modify {streams : List (List ℤ)} {cursors : List ℕ} {smallest : ℤ} {chosen : ℕ}
    (h : smallestHead streams cursors 0 none = some (smallest, chosen)) :
    remaining streams (cursors.modify chosen (· + 1)) < remaining streams cursors := by
  obtain ⟨tail, hhead, hrests, -⟩ := smallestHead_step h
  rw [remaining, remaining, hrests, (Heads.flatten_perm_cons hhead).length_eq]
  exact Nat.lt_succ_self _

/-! ### Merging -/

/-- The outer loop of `merge`. -/
def mergeLoop (streams : List (List ℤ)) (dedupe : Bool) (cursors : List ℕ) (out : List ℤ) :
    List ℤ :=
  match _h : smallestHead streams cursors 0 none with
  | none => out
  | some (smallest, chosen) =>
    mergeLoop streams dedupe (cursors.modify chosen (· + 1))
      (if dedupe ∧ out.getLast? = some smallest then out else out ++ [smallest])
termination_by remaining streams cursors
decreasing_by exact remaining_modify _h

/-- `merge`. -/
def merge (streams : List (List ℤ)) (dedupe : Bool) : Except RelayError (List ℤ) := do
  checkAll 0 streams
  .ok (mergeLoop streams dedupe (List.replicate streams.length 0) [])

/-- **The output of the loop** is a merged list of what was left of the streams, or what is kept of
one when equal values are left out. -/
theorem mergeLoop_merged (streams : List (List ℤ)) (dedupe : Bool) (cursors : List ℕ)
    (out : List ℤ) :
    ∃ merged, Heads.Merged (rests streams cursors) merged ∧
      mergeLoop streams dedupe cursors out =
        out ++ if dedupe then Heads.collapse out.getLast? merged else merged := by
  induction cursors, out using mergeLoop.induct streams dedupe with
  | case1 cursors out h =>
    refine ⟨[], .done ((smallestHead_spec streams cursors 0 none).1 h).2, ?_⟩
    have hloop : mergeLoop streams dedupe cursors out = out := by
      rw [mergeLoop]
      split
      · rfl
      · next hsome => cases h.symm.trans hsome
    rw [hloop]
    cases dedupe <;> simp [Heads.collapse]
  | case2 cursors out smallest chosen h ih =>
    obtain ⟨tail, hhead, hrests, hleast⟩ := smallestHead_step h
    obtain ⟨merged, hmerged, hrest⟩ := ih
    rw [hrests] at hmerged
    simp only [dite_eq_ite] at hrest
    refine ⟨smallest :: merged, .take chosen smallest tail hhead hleast hmerged, ?_⟩
    have hloop : mergeLoop streams dedupe cursors out =
        mergeLoop streams dedupe (cursors.modify chosen (· + 1))
          (if dedupe ∧ out.getLast? = some smallest then out else out ++ [smallest]) := by
      rw [mergeLoop]
      split
      · next hnone => cases h.symm.trans hnone
      · next hsome =>
        obtain ⟨rfl, rfl⟩ := Prod.mk.inj (Option.some.inj (h.symm.trans hsome))
        rfl
    rw [hloop, hrest]
    cases dedupe with
    | false => simp
    | true =>
      by_cases hlast : out.getLast? = some smallest
      · simp [Heads.collapse, hlast]
      · simp [Heads.collapse, hlast]

/-! ### Unsorted streams -/

theorem checkSorted_eq_ok_iff (idx i : ℕ) (stream : List ℤ) :
    checkSorted idx i stream = .ok () ↔ stream.Pairwise (· ≤ ·) := by
  rw [← List.isChain_iff_pairwise]
  induction stream generalizing i with
  | nil => exact iff_of_true rfl .nil
  | cons a stream ih =>
    cases stream with
    | nil => exact iff_of_true rfl (.singleton a)
    | cons b stream =>
      rw [checkSorted, List.isChain_cons_cons]
      split
      · next hlt => exact iff_of_false (fun h => by cases h) fun h => hlt.not_ge h.1
      · next hle => rw [ih, and_iff_right (not_lt.mp hle)]

theorem checkAll_eq_ok_iff (idx : ℕ) (streams : List (List ℤ)) :
    checkAll idx streams = .ok () ↔ ∀ s ∈ streams, s.Pairwise (· ≤ ·) := by
  induction streams generalizing idx with
  | nil => exact iff_of_true rfl fun s hs => by cases hs
  | cons stream streams ih =>
    rw [checkAll, List.forall_mem_cons, ← checkSorted_eq_ok_iff idx 1, ← ih (idx + 1)]
    cases checkSorted idx 1 stream with
    | error refusal => exact iff_of_false (fun h => by cases h) fun h => by cases h.1
    | ok done => exact (and_iff_right rfl).symm

/-- The cursors start at the front. -/
theorem rests_replicate (streams : List (List ℤ)) :
    rests streams (List.replicate streams.length 0) = streams := by
  induction streams with
  | nil => rfl
  | cons stream streams ih => rw [List.length_cons, List.replicate_succ, rests_cons, ih]; rfl

/-- What a call does: it refuses streams that are not sorted, or gives what is kept of a merged
list. -/
theorem merge_cases (streams : List (List ℤ)) (dedupe : Bool) :
    ((∃ refusal, merge streams dedupe = .error refusal) ∧
      ∃ s ∈ streams, ¬ s.Pairwise (· ≤ ·)) ∨
    (∀ s ∈ streams, s.Pairwise (· ≤ ·)) ∧ ∃ merged, Heads.Merged streams merged ∧
      merge streams dedupe = .ok (if dedupe then Heads.collapse none merged else merged) := by
  rw [merge]
  cases hcheck : checkAll 0 streams with
  | error refusal =>
    refine Or.inl ⟨⟨refusal, rfl⟩, ?_⟩
    have hnot := (not_congr (checkAll_eq_ok_iff 0 streams)).mp fun h => by
      cases hcheck.symm.trans h
    push Not at hnot
    exact hnot
  | ok done =>
    obtain ⟨merged, hmerged, hloop⟩ :=
      mergeLoop_merged streams dedupe (List.replicate streams.length 0) []
    rw [rests_replicate] at hmerged
    refine Or.inr ⟨(checkAll_eq_ok_iff 0 streams).mp hcheck, merged, hmerged, ?_⟩
    exact congrArg Except.ok hloop

/-- **Merging.** A merge raises exactly when some stream is not sorted. Otherwise it returns all
elements in order, or, without duplicates, all values in order. -/
theorem merge_spec (streams : List (List ℤ)) :
    (∀ dedupe, (∃ refusal, merge streams dedupe = .error refusal) ↔
      ∃ s ∈ streams, ¬ s.Pairwise (· ≤ ·)) ∧
    (∀ out, merge streams false = .ok out →
      out.Pairwise (· ≤ ·) ∧ out.Perm streams.flatten) ∧
    ∀ out, merge streams true = .ok out →
      out.Pairwise (· < ·) ∧ ∀ v, v ∈ out ↔ ∃ s ∈ streams, v ∈ s := by
  refine ⟨fun dedupe => ?_, fun out hout => ?_, fun out hout => ?_⟩
  · rcases merge_cases streams dedupe with ⟨hraises, hunsorted⟩ | ⟨hsorted, merged, -, hmerge⟩
    · exact iff_of_true hraises hunsorted
    · refine iff_of_false ?_ ?_
      · rintro ⟨refusal, hrefusal⟩
        cases hrefusal.symm.trans hmerge
      · rintro ⟨s, hs, hunsorted⟩
        exact hunsorted (hsorted s hs)
  · rcases merge_cases streams false with
      ⟨⟨refusal, hraises⟩, -⟩ | ⟨hsorted, merged, hmerged, hmerge⟩
    · cases hraises.symm.trans hout
    · obtain rfl := Except.ok.inj (hout.symm.trans hmerge)
      exact ⟨hmerged.sorted hsorted, hmerged.perm⟩
  · rcases merge_cases streams true with
      ⟨⟨refusal, hraises⟩, -⟩ | ⟨hsorted, merged, hmerged, hmerge⟩
    · cases hraises.symm.trans hout
    · obtain rfl := Except.ok.inj (hout.symm.trans hmerge)
      have hmerged' : ((none : Option ℤ).toList ++ merged).Pairwise (· ≤ ·) :=
        hmerged.sorted hsorted
      refine ⟨Heads.pairwise_collapse hmerged', fun v => ?_⟩
      rw [if_pos rfl, Heads.mem_collapse hmerged', hmerged.perm.mem_iff, List.mem_flatten]
      exact and_iff_left (by simp)

example : checkSorted 0 1 [1, 3, 2] = .error (.invalid ("input 0 is not sorted at position 2; a "
    ++ "merge over it produces an unsorted output a later binary search misreads")) := by decide

end MergeIterator

end Relay
