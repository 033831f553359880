import Mathlib.Data.List.DropRight
import Mathlib.Order.Lattice

/-!
# Peaks of a list

Seen from its end, a list shows those elements only that exceed everything after them: its peaks.
The first of them is the largest element of the list, the last of several that are equal.

An element that is added at the end hides those peaks at the end that it is no smaller than
(`peaks_append_singleton`). An element that is taken off at the front takes a peak with it only if
it is the first peak (`peaks_cons`).

## Main definitions

* `peaks`: the elements that exceed all later ones

## Main results

* `peaks_append_singleton`: one more element at the end
* `le_of_peaks_eq_cons`: the first peak is the largest element
-/

namespace Relay

namespace Peaks

variable {β τ : Type*} [LinearOrder τ] (key : β → τ)

/-- The elements whose key exceeds that of all later ones. -/
def peaks : List β → List β
  | [] => []
  | a :: l => if ∀ b ∈ l, key b < key a then a :: peaks l else peaks l

/-- An element at the front that is kept stays there when the list is cut from its end. -/
theorem rdropWhile_cons_of_neg {p : β → Bool} {a : β} (l : List β) (ha : ¬p a) :
    (a :: l).rdropWhile p = a :: l.rdropWhile p := by
  rw [List.rdropWhile, List.reverse_cons, List.dropWhile_append]
  split
  · rename_i hall
    rw [List.rdropWhile, List.isEmpty_iff.mp hall, List.dropWhile_cons_of_neg ha]
    rfl
  · rw [List.reverse_append]
    rfl

variable {l : List β} {a b : β}

theorem peaks_sublist (l : List β) : (peaks key l).Sublist l := by
  induction l with
  | nil => exact List.Sublist.slnil
  | cons a l ih =>
    rw [peaks]
    split
    · exact ih.cons_cons a
    · exact ih.cons a

/-- **One more element at the end** hides the peaks at the end that are no larger. -/
theorem peaks_append_singleton (l : List β) (b : β) :
    peaks key (l ++ [b]) = (peaks key l).rdropWhile (fun a => key a ≤ key b) ++ [b] := by
  induction l with
  | nil => simp [peaks]
  | cons a l ih =>
    rw [List.cons_append, peaks, peaks, ih]
    rcases lt_or_ge (key b) (key a) with hab | hba
    · -- `a` is seen beyond `b` exactly when it was seen before
      have hseen : (∀ c ∈ l ++ [b], key c < key a) ↔ ∀ c ∈ l, key c < key a := by
        constructor
        · intro h c hc
          exact h c (List.mem_append_left _ hc)
        · intro h c hc
          rcases List.mem_append.mp hc with hc | hc
          · exact h c hc
          · rwa [List.mem_singleton.mp hc]
      simp only [hseen]
      split
      · have hstays : ¬decide (key a ≤ key b) = true := fun h =>
          hab.not_ge (of_decide_eq_true h)
        rw [rdropWhile_cons_of_neg (p := fun a => decide (key a ≤ key b)) _ hstays,
          List.cons_append]
      · rfl
    · have hhidden : ¬∀ c ∈ l ++ [b], key c < key a := fun h =>
        hba.not_gt (h b (List.mem_append_right l (List.mem_singleton_self b)))
      rw [if_neg hhidden]
      split
      · rename_i hpeak
        have hlow : ∀ c ∈ peaks key l, decide (key c ≤ key b) = true := fun c hc =>
          decide_eq_true ((hpeak c ((peaks_sublist key l).subset hc)).le.trans hba)
        have hall : ∀ c ∈ a :: peaks key l, decide (key c ≤ key b) = true :=
          List.forall_mem_cons.mpr ⟨decide_eq_true hba, hlow⟩
        rw [List.rdropWhile_eq_nil_iff.mpr hlow, List.rdropWhile_eq_nil_iff.mpr hall]
      · rfl

variable {key} in
/-- **The first peak** is the largest element. -/
theorem le_of_peaks_eq_cons {rest : List β} (h : peaks key l = a :: rest) (hb : b ∈ l) :
    key b ≤ key a := by
  induction l generalizing a b rest with
  | nil => exact absurd hb List.not_mem_nil
  | cons c l ih =>
    rw [peaks] at h
    split at h
    · rename_i hpeak
      obtain ⟨rfl, -⟩ := List.cons.inj h
      rcases List.mem_cons.mp hb with rfl | hb
      · exact le_refl _
      · exact (hpeak b hb).le
    · rename_i hhidden
      rcases List.mem_cons.mp hb with rfl | hb
      · push Not at hhidden
        obtain ⟨d, hd, hle⟩ := hhidden
        exact hle.trans (ih h hd)
      · exact ih h hb

/-- Where there are elements, there is a peak. -/
theorem peaks_ne_nil (h : l ≠ []) : peaks key l ≠ [] := by
  rw [← List.dropLast_concat_getLast h, peaks_append_singleton]
  exact List.append_ne_nil_of_right_ne_nil _ (List.cons_ne_nil _ _)

end Peaks

end Relay
