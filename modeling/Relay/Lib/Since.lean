import Mathlib.Data.List.DropRight
import Relay.Lib.Machine

/-!
# What has held since

A past is a list of events, the last one at its end. `Since A B` says that at some event of the past
`B` held, and that `A` has held at every event since. Both may depend on the events before the one
they are about.

One more event decides as follows: `B` holds at it, or what was so before it is still so and `A`
holds at it. A state that is changed in this way by every call tells about the past what `Since`
says, and the run rule makes that an equivalence.

What came after the last event of some kind is a part of the past as well. So is what the events
made and no later event undid: `survivors` lists it in the order it was made in.

## Main definitions

* `Since`
* `afterLast`: the events after the last one of a kind
* `survivors`: what was made and not undone

## Main results

* `since_append_singleton`: one more event
* `Machine.iff_since`: a property of states that every call changes in this way
* `afterLast_append_singleton`, `afterLast_spec`
* `survivors_append_singleton`, `mem_survivors_iff`
-/

namespace Relay

variable {ε : Type*} {A B : List ε → ε → Prop} {events : List ε}

/-- `B` held at some event of the list, and `A` at every event after it. -/
def Since (A B : List ε → ε → Prop) (events : List ε) : Prop :=
  ∃ before e after, events = before ++ e :: after ∧ B before e ∧
    ∀ pre d post, after = pre ++ d :: post → A (before ++ e :: pre) d

theorem not_since_nil : ¬ Since A B [] := by
  rintro ⟨before, e, after, h, -⟩
  exact List.append_ne_nil_of_right_ne_nil before (List.cons_ne_nil e after) h.symm

/-- **One more event.** -/
theorem since_append_singleton {d : ε} :
    Since A B (events ++ [d]) ↔ B events d ∨ Since A B events ∧ A events d := by
  constructor
  · rintro ⟨before, e, after, h, hB, hA⟩
    rcases List.eq_nil_or_concat after with rfl | ⟨after, d', rfl⟩
    · obtain ⟨rfl, hd⟩ := List.append_inj' h rfl
      exact Or.inl ((List.cons.inj hd).1 ▸ hB)
    · rw [List.concat_eq_append, ← List.cons_append, ← List.append_assoc] at h
      obtain ⟨rfl, hd⟩ := List.append_inj' h rfl
      obtain rfl := (List.cons.inj hd).1
      rw [List.concat_eq_append] at hA
      refine Or.inr ⟨⟨before, e, after, rfl, hB, fun pre c post hsplit => ?_⟩, hA after d [] rfl⟩
      exact hA pre c (post ++ [d]) (by rw [hsplit, List.append_assoc, List.cons_append])
  · rintro (hB | ⟨⟨before, e, after, rfl, hB, hA⟩, hd⟩)
    · refine ⟨events, d, [], rfl, hB, fun pre c post hsplit => ?_⟩
      exact absurd hsplit.symm (List.append_ne_nil_of_right_ne_nil _ (List.cons_ne_nil _ _))
    · refine ⟨before, e, after ++ [d], by rw [List.append_assoc, List.cons_append], hB, ?_⟩
      intro pre c post hsplit
      rcases List.eq_nil_or_concat post with rfl | ⟨post, c', rfl⟩
      · obtain ⟨rfl, hc⟩ := List.append_inj' hsplit rfl
        exact (List.cons.inj hc).1 ▸ hd
      · rw [List.concat_eq_append, ← List.cons_append, ← List.append_assoc] at hsplit
        exact hA pre c post (List.append_inj' hsplit rfl).1

/-- **The rule.** If every call makes a property of the state true if `B` holds at it, and else
keeps it exactly if `A` holds at it, then the property tells whether `A` has held since `B`. -/
theorem Machine.iff_since {σ ι ο : Type*} {m : Machine σ ι ο} {s₀ : σ} {P : σ → Prop}
    {A B : List (ι × ο) → ι × ο → Prop} (init : ¬ P s₀)
    (step : ∀ is i, P (m.step (m.final s₀ is) i).2 ↔
      B (m.trace s₀ is) (i, (m.step (m.final s₀ is) i).1) ∨
        P (m.final s₀ is) ∧ A (m.trace s₀ is) (i, (m.step (m.final s₀ is) i).1))
    (is : List ι) : P (m.final s₀ is) ↔ Since A B (m.trace s₀ is) := by
  induction is using List.reverseRecOn with
  | nil => exact iff_of_false init not_since_nil
  | append_singleton is i ih =>
    rw [final_append_singleton, trace_append_singleton, since_append_singleton, step, ih]

/-! ### The last event of a kind -/

section AfterLast

variable {p : ε → Prop} [DecidablePred p]

/-- The events after the last one of a kind, or all of them if there is none. -/
def afterLast (p : ε → Prop) [DecidablePred p] (events : List ε) : List ε :=
  events.rtakeWhile fun e => ¬ p e

theorem afterLast_append_singleton {d : ε} :
    afterLast p (events ++ [d]) = if p d then [] else afterLast p events ++ [d] := by
  rw [afterLast, List.rtakeWhile_concat, ← afterLast]
  by_cases hd : p d <;> simp [hd]

/-- No event of the kind is among them, and they are all events or the event before them is of the
kind. -/
theorem afterLast_spec (p : ε → Prop) [DecidablePred p] (events : List ε) :
    (∀ e ∈ afterLast p events, ¬ p e) ∧
      (afterLast p events = events ∨
        ∃ before e, p e ∧ events = before ++ e :: afterLast p events) := by
  induction events using List.reverseRecOn with
  | nil => exact ⟨List.forall_mem_nil _, Or.inl rfl⟩
  | append_singleton events d ih =>
    obtain ⟨hnone, hsplit⟩ := ih
    rw [afterLast_append_singleton]
    split
    · next hd => exact ⟨List.forall_mem_nil _, Or.inr ⟨events, d, hd, rfl⟩⟩
    · next hd =>
      refine ⟨forall_mem_append_singleton.mpr ⟨hnone, hd⟩, ?_⟩
      rcases hsplit with heq | ⟨before, e, he, heq⟩
      · exact Or.inl (by rw [heq])
      · refine Or.inr ⟨before, e, he, ?_⟩
        rw [← List.cons_append, ← List.append_assoc, ← heq]

end AfterLast

/-! ### What was made and not undone -/

section Survivors

variable {α : Type*} {make : ε → Option α} {undoes : α → ε → Prop}

/-- What the events made, without what a later event undid. -/
def survivors (make : ε → Option α) (undoes : α → ε → Prop) [∀ a e, Decidable (undoes a e)] :
    List ε → List α
  | [] => []
  | e :: later => ((make e).filter fun a => ∀ d ∈ later, ¬ undoes a d).toList ++
      survivors make undoes later

variable [∀ a e, Decidable (undoes a e)]

theorem toList_filter_forall {a? : Option α} {later : List ε} {d : ε} :
    (a?.filter fun a => ∀ e ∈ later ++ [d], ¬ undoes a e).toList =
      (a?.filter fun a => ∀ e ∈ later, ¬ undoes a e).toList.filter fun a => ¬ undoes a d := by
  cases a? with
  | none => rfl
  | some a =>
    simp only [Option.filter_some, forall_mem_append_singleton, decide_eq_true_eq]
    by_cases hlater : ∀ e ∈ later, ¬ undoes a e
    · by_cases hd : undoes a d
      · rw [if_neg fun h => h.2 hd, if_pos hlater]
        simp [hd]
      · rw [if_pos ⟨hlater, hd⟩, if_pos hlater]
        simp [hd]
    · rw [if_neg fun h => hlater h.1, if_neg hlater]
      rfl

/-- One more event undoes some of it, and may make one more. -/
theorem survivors_append_singleton {d : ε} :
    survivors make undoes (events ++ [d]) =
      (survivors make undoes events).filter (fun a => ¬ undoes a d) ++ (make d).toList := by
  induction events with
  | nil =>
    cases hmake : make d with
    | none => simp [survivors, hmake]
    | some a => simp [survivors, hmake]
  | cons e events ih =>
    rw [List.cons_append, survivors, toList_filter_forall, ih, survivors, List.filter_append,
      List.append_assoc]

/-- What is there was made, and has not been undone since. -/
theorem mem_survivors_iff {a : α} :
    a ∈ survivors make undoes events ↔
      Since (fun _ d => ¬ undoes a d) (fun _ e => make e = some a) events := by
  induction events using List.reverseRecOn with
  | nil => exact iff_of_false List.not_mem_nil not_since_nil
  | append_singleton events d ih =>
    rw [survivors_append_singleton, since_append_singleton, ← ih, List.mem_append, List.mem_filter,
      Option.mem_toList, decide_eq_true_eq, or_comm]

/-- It comes in the order it was made in. -/
theorem survivors_sublist : (survivors make undoes events).Sublist (events.filterMap make) := by
  induction events with
  | nil => exact List.Sublist.refl _
  | cons e events ih =>
    rw [survivors]
    cases hmake : make e with
    | none =>
      rw [List.filterMap_cons_none hmake]
      exact ih
    | some a =>
      rw [List.filterMap_cons_some hmake, Option.filter_some]
      split
      · exact ih.cons_cons a
      · exact ih.cons a

end Survivors

end Relay
