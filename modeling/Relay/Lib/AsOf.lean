import Mathlib.Data.List.Pairwise
import Mathlib.Order.Lattice
import Relay.Lib.Machine

/-!
# What is in force at a time

A list of dated entries, each later than the one before it, says what holds from when on. In force
at a time is the last entry that is not later than it. A loop finds it that goes through the list
from the front, keeps what it has seen and stops at the first entry that is too late. So does a
search that goes through the list from the back and takes the first entry that is not.

An entry that is added at the end is later than all the others. It changes nothing at the times
before it, so what is in force at a time is settled as soon as there is an entry later than that
time.

## Main definitions

* `Dated`: every entry is later than those before it
* `InForce`: the last entry that is not later than a time
* `LooksUp`: what a lookup answers
* `floorFrom`: the loop

## Main results

* `any_getLast?_eq_true_iff`: whether one more entry can be added
* `Dated.inForce_unique`, `Dated.looksUp_unique`: a lookup has one answer
* `looksUp_append`, `Dated.forall_later_lt`: entries that are added at the end
* `Dated.looksUp_floorFrom`, `Dated.looksUp_find?`: the loop and the search look up
* `Dated.looksUp_of_head`: the loop after a look at the first entry
-/

namespace Relay

variable {τ β γ δ : Type*} [LinearOrder τ] {l : List (τ × β)} {e d : τ × β} {s t : τ}

/-- Every entry is later than those before it. -/
def Dated (l : List (τ × β)) : Prop := l.Pairwise fun d e => d.1 < e.1

/-- The entry is not later than the time, and no entry that is not is later than it. -/
def InForce (l : List (τ × β)) (t : τ) (e : τ × β) : Prop :=
  e ∈ l ∧ e.1 ≤ t ∧ ∀ d ∈ l, d.1 ≤ t → d.1 ≤ e.1

/-- The loop: what it keeps of the last entry it has seen. -/
def floorFrom (kept : τ × β → γ) (t : τ) (current : γ) : List (τ × β) → γ
  | [] => current
  | e :: rest => if e.1 ≤ t then floorFrom kept t (kept e) rest else current

/-- What a lookup answers: what it keeps of the entry in force, or that there is none. -/
def LooksUp (l : List (τ × β)) (t : τ) (kept : τ × β → γ) (missing answer : γ) : Prop :=
  (∀ d ∈ l, t < d.1) ∧ answer = missing ∨ ∃ e, InForce l t e ∧ answer = kept e

/-- A look at the last of a list tells whether a new element stands in the list's relation to
all. -/
theorem any_getLast?_eq_true_iff {α : Type*} {R : α → α → Prop} {l : List α} {x : α} {p : α → Bool}
    (trans : ∀ {a b}, R a b → R b x → R a x) (hp : ∀ y, p y = true ↔ ¬ R y x) (h : l.Pairwise R) :
    l.getLast?.any p = true ↔ ∃ y ∈ l, ¬ R y x := by
  rw [Option.any_eq_true]
  constructor
  · rintro ⟨last, hlast, hnot⟩
    exact ⟨last, List.mem_of_getLast? hlast, (hp last).mp hnot⟩
  · rintro ⟨y, hy, hnot⟩
    obtain ⟨last, hlast⟩ := exists_getLast?_eq_some hy
    refine ⟨last, hlast, (hp last).mpr fun hrel => hnot ?_⟩
    rcases eq_or_rel_getLast h hlast hy with rfl | hylast
    · exact hrel
    · exact trans hylast hrel

theorem dated_append_singleton : Dated (l ++ [e]) ↔ Dated l ∧ ∀ d ∈ l, d.1 < e.1 :=
  pairwise_append_singleton

theorem Dated.eq_of_fst_eq (h : Dated l) (hd : d ∈ l) (he : e ∈ l) (heq : d.1 = e.1) : d = e := by
  by_contra hne
  have hapart : l.Pairwise fun d e => d.1 ≠ e.1 := h.imp fun hlt => hlt.ne
  have hsymm : Std.Symm fun d e : τ × β => d.1 ≠ e.1 := ⟨fun _ _ => Ne.symm⟩
  exact hapart.forall hd he hne heq

theorem Dated.inForce_unique (h : Dated l) (hd : InForce l t d) (he : InForce l t e) : d = e :=
  h.eq_of_fst_eq hd.1 he.1 ((he.2.2 d hd.1 hd.2.1).antisymm (hd.2.2 e he.1 he.2.1))

/-- What is in force later is not earlier. -/
theorem InForce.le_of_le (hd : InForce l s d) (he : InForce l t e) (hle : s ≤ t) : d.1 ≤ e.1 :=
  he.2.2 d hd.1 (hd.2.1.trans hle)

/-- A lookup has one answer. -/
theorem Dated.looksUp_unique (hdated : Dated l) {kept : τ × β → γ} {missing answer answer' : γ}
    (h : LooksUp l t kept missing answer) (h' : LooksUp l t kept missing answer') :
    answer = answer' := by
  rcases h with ⟨hnone, rfl⟩ | ⟨d, hd, rfl⟩
  · rcases h' with ⟨-, rfl⟩ | ⟨d, hd, rfl⟩
    · rfl
    · exact absurd hd.2.1 (hnone d hd.1).not_ge
  · rcases h' with ⟨hnone, rfl⟩ | ⟨e, he, rfl⟩
    · exact absurd hd.2.1 (hnone d hd.1).not_ge
    · rw [hdated.inForce_unique hd he]

theorem LooksUp.map {kept : τ × β → γ} {missing answer : γ} (h : LooksUp l t kept missing answer)
    (f : γ → δ) : LooksUp l t (fun e => f (kept e)) (f missing) (f answer) := by
  rcases h with ⟨hnone, rfl⟩ | ⟨e, he, rfl⟩
  · exact Or.inl ⟨hnone, rfl⟩
  · exact Or.inr ⟨e, he, rfl⟩

/-- Entries later than the time change nothing at it. -/
theorem inForce_append {later : List (τ × β)} (h : ∀ d ∈ later, t < d.1) :
    InForce (l ++ later) t e ↔ InForce l t e := by
  constructor
  · rintro ⟨hmem, hle, hlast⟩
    refine ⟨(List.mem_append.mp hmem).resolve_right fun hlater => (h e hlater).not_ge hle, hle, ?_⟩
    exact fun d hd => hlast d (List.mem_append_left later hd)
  · rintro ⟨hmem, hle, hlast⟩
    refine ⟨List.mem_append_left later hmem, hle, fun d hd hdle => ?_⟩
    rcases List.mem_append.mp hd with hd | hd
    · exact hlast d hd hdle
    · exact absurd hdle (h d hd).not_ge

theorem looksUp_append {later : List (τ × β)} (h : ∀ d ∈ later, t < d.1) {kept : τ × β → γ}
    {missing answer : γ} :
    LooksUp (l ++ later) t kept missing answer ↔ LooksUp l t kept missing answer := by
  simp only [LooksUp, inForce_append h, List.forall_mem_append, and_iff_left h]

/-- Once there is an entry later than a time, every entry that is added is. -/
theorem Dated.forall_later_lt {later : List (τ × β)} (h : Dated (l ++ later)) (hd : d ∈ l)
    (hlt : t < d.1) : ∀ e ∈ later, t < e.1 :=
  fun e he => hlt.trans ((List.pairwise_append.mp h).2.2 d hd e he)

/-- The first entry of what is left, if it is not later than the time, is in force or gives way to a
later one. -/
theorem Dated.inForce_cons_iff (h : Dated (e :: l)) (hle : e.1 ≤ t) :
    InForce (e :: l) t d ↔ (∀ x ∈ l, t < x.1) ∧ d = e ∨ InForce l t d := by
  obtain ⟨hfirst, hrest⟩ := List.pairwise_cons.mp h
  constructor
  · rintro ⟨hmem, hdle, hlast⟩
    rcases List.mem_cons.mp hmem with rfl | hmem
    · refine Or.inl ⟨fun x hx => not_le.mp fun hxt => ?_, rfl⟩
      exact (hfirst x hx).not_ge (hlast x (List.mem_cons_of_mem d hx) hxt)
    · exact Or.inr ⟨hmem, hdle, fun x hx => hlast x (List.mem_cons_of_mem e hx)⟩
  · rintro (⟨hlater, rfl⟩ | ⟨hmem, hdle, hlast⟩)
    · refine ⟨List.mem_cons_self, hle,
        List.forall_mem_cons.mpr ⟨fun _ => le_rfl, fun x hx hxt => ?_⟩⟩
      exact absurd hxt (hlater x hx).not_ge
    · refine ⟨List.mem_cons_of_mem e hmem, hdle, List.forall_mem_cons.mpr ⟨fun _ => ?_, hlast⟩⟩
      exact (hfirst d hmem).le

/-- **The loop** ends with the entry in force, or with what it began with if there is none. -/
theorem Dated.looksUp_floorFrom (h : Dated l) (kept : τ × β → γ) (current : γ) :
    LooksUp l t kept current (floorFrom kept t current l) := by
  induction l generalizing current with
  | nil => exact Or.inl ⟨List.forall_mem_nil _, rfl⟩
  | cons e l ih =>
    obtain ⟨hfirst, hrest⟩ := List.pairwise_cons.mp h
    rw [floorFrom]
    by_cases hle : e.1 ≤ t
    · rw [if_pos hle]
      rcases ih hrest (kept e) with ⟨hlater, heq⟩ | ⟨d, hd, heq⟩
      · exact Or.inr ⟨e, (h.inForce_cons_iff hle).mpr (Or.inl ⟨hlater, rfl⟩), heq⟩
      · exact Or.inr ⟨d, (h.inForce_cons_iff hle).mpr (Or.inr hd), heq⟩
    · rw [if_neg hle]
      refine Or.inl ⟨List.forall_mem_cons.mpr ⟨not_le.mp hle, fun d hd => ?_⟩, rfl⟩
      exact (not_le.mp hle).trans (hfirst d hd)

/-- The loop after a look at the first entry, which is before all the others. -/
theorem Dated.looksUp_of_head (h : Dated (e :: l)) (kept : τ × β → γ) (current : γ) (f : γ → δ)
    (missing : δ) : LooksUp (e :: l) t (fun d => f (kept d)) missing
      (if t < e.1 then missing else f (floorFrom kept t current (e :: l))) := by
  split
  · next hlt =>
    refine Or.inl ⟨List.forall_mem_cons.mpr ⟨hlt, fun d hd => ?_⟩, rfl⟩
    exact hlt.trans ((List.pairwise_cons.mp h).1 d hd)
  · next hge =>
    rcases h.looksUp_floorFrom (t := t) kept current with ⟨hlater, -⟩ | ⟨d, hd, heq⟩
    · exact absurd (hlater e List.mem_cons_self) hge
    · exact Or.inr ⟨d, hd, congrArg f heq⟩

/-- **The search from the back** finds the entry in force. -/
theorem Dated.looksUp_find? (h : Dated l) :
    LooksUp l t some none (l.reverse.find? fun d => d.1 ≤ t) := by
  induction l using List.reverseRecOn with
  | nil => exact Or.inl ⟨List.forall_mem_nil _, rfl⟩
  | append_singleton l last ih =>
    obtain ⟨hl, hlast⟩ := dated_append_singleton.mp h
    rw [List.reverse_append, List.reverse_singleton, List.singleton_append, List.find?_cons]
    by_cases hle : last.1 ≤ t
    · rw [decide_eq_true hle]
      refine Or.inr ⟨last, ⟨List.mem_append_right l List.mem_cons_self, hle, ?_⟩, rfl⟩
      exact forall_mem_append_singleton.mpr ⟨fun d hd _ => (hlast d hd).le, fun _ => le_rfl⟩
    · have hlater : ∀ d ∈ [last], t < d.1 := List.forall_mem_singleton.mpr (not_le.mp hle)
      rw [decide_eq_false hle, looksUp_append hlater]
      exact ih hl

end Relay
