import Mathlib.Algebra.Order.Ring.Int
import Mathlib.Data.List.Chain
import Relay.Errors

/-!
# Gaps instead of values

A sorted list is stored as its first value and the gaps to the next ones, which are small where the
values are close. The decoder adds the gaps up. The encoder refuses values that are not sorted and
names the first that comes after a greater one, so it gives exactly the lists without negative gaps.

## Main definitions

* `DeltaEncoding.encode`, `DeltaEncoding.decode`

## Main results

* `DeltaEncoding.encode_eq_ok_iff`: what is encoded is what is decoded to it, without negative gaps
* `DeltaEncoding.encode_eq_error_iff`: what is refused
-/

namespace Relay

namespace DeltaEncoding

/-- What values are refused with that are not sorted. -/
def notSorted (i : ℕ) (value before : ℤ) : RelayError :=
  .invalid (s!"input not sorted at position {i} ({value} < {before}); " ++
    "a negative delta is bigger to encode and wrong to decode as a gap")

/-- The loop of `encode` that checks the order. -/
def checkSorted (i : ℕ) (before : ℤ) : List ℤ → Option RelayError
  | [] => none
  | v :: rest => if v < before then some (notSorted i v before) else checkSorted (i + 1) v rest

/-- The loop of `encode` that takes the gaps. -/
def gaps (before : ℤ) : List ℤ → List ℤ
  | [] => []
  | v :: rest => (v - before) :: gaps v rest

/-- `encode`. -/
def encode : List ℤ → Except RelayError (List ℤ)
  | [] => .ok []
  | v :: rest =>
    match checkSorted 1 v rest with
    | some error => .error error
    | none => .ok (v :: gaps v rest)

/-- The loop of `decode`. -/
def sums (before : ℤ) : List ℤ → List ℤ
  | [] => []
  | d :: rest => (before + d) :: sums (before + d) rest

/-- `decode`. -/
def decode : List ℤ → List ℤ
  | [] => []
  | d :: rest => d :: sums d rest

/-- The bytes saved, by decimal digits. -/
def compressionNote (values : List ℤ) : Except RelayError String :=
  if values = [] then .ok "empty sequence; nothing to encode"
  else
    (encode values).map fun deltas =>
      let raw := (values.map fun v => (toString v).length).sum
      let encoded := (deltas.map fun d => (toString d).length).sum
      s!"raw ~{raw} digit(s), delta-encoded ~{encoded}, saved ~{(raw : ℤ) - encoded}; " ++
        "values far apart give large deltas and little saving, the ratio " ++
        "says whether delta encoding buys anything here"

variable {values deltas rest : List ℤ} {before v : ℤ} {i : ℕ}

theorem sums_gaps (before : ℤ) (rest : List ℤ) : sums before (gaps before rest) = rest := by
  induction rest generalizing before with
  | nil => rfl
  | cons v rest ih => rw [gaps, sums, add_sub_cancel, ih]

theorem gaps_sums (before : ℤ) (deltas : List ℤ) : gaps before (sums before deltas) = deltas := by
  induction deltas generalizing before with
  | nil => rfl
  | cons d deltas ih => rw [sums, gaps, ih, add_sub_cancel_left]

/-- The check passes exactly if no value comes after a greater one. -/
theorem checkSorted_eq_none_iff :
    checkSorted i before rest = none ↔ (before :: rest).IsChain (· ≤ ·) := by
  induction rest generalizing i before with
  | nil => exact iff_of_true rfl (List.IsChain.singleton _)
  | cons v rest ih =>
    rw [checkSorted, List.isChain_cons_cons]
    by_cases hv : v < before
    · rw [if_pos hv]
      exact iff_of_false (fun h => by cases h) fun h => absurd h.1 (not_le.mpr hv)
    · rw [if_neg hv, ih, and_iff_right (not_lt.mp hv)]

/-- The check names the first value that comes after a greater one. -/
theorem checkSorted_eq_some_iff {error : RelayError} :
    checkSorted i before rest = some error ↔
      ∃ sorted a b after, before :: rest = sorted ++ a :: b :: after ∧
        (sorted ++ [a]).IsChain (· ≤ ·) ∧ b < a ∧ error = notSorted (i + sorted.length) b a := by
  induction rest generalizing i before with
  | nil =>
    refine iff_of_false (fun h => by cases h) ?_
    rintro ⟨sorted, a, b, after, hsplit, -⟩
    have hlength := congrArg List.length hsplit
    simp only [List.length_append, List.length_cons, List.length_nil] at hlength
    omega
  | cons v rest ih =>
    rw [checkSorted]
    by_cases hv : v < before
    · rw [if_pos hv, Option.some.injEq]
      constructor
      · rintro rfl
        exact ⟨[], before, v, rest, rfl, List.IsChain.singleton _, hv, rfl⟩
      · rintro ⟨sorted, a, b, after, hsplit, hchain, hlt, rfl⟩
        cases sorted with
        | nil =>
          obtain ⟨rfl, hrest⟩ := List.cons.inj hsplit
          obtain ⟨rfl, -⟩ := List.cons.inj hrest
          rfl
        | cons s sorted =>
          -- the first two values were in order
          obtain ⟨rfl, hrest⟩ := List.cons.inj hsplit
          have hnext : v ∈ (sorted ++ [a]).head? := by
            cases sorted with
            | nil => exact congrArg some (List.cons.inj hrest).1.symm
            | cons s sorted => exact congrArg some (List.cons.inj hrest).1.symm
          exact absurd ((List.isChain_cons.mp hchain).1 v hnext) (not_le.mpr hv)
    · rw [if_neg hv, ih]
      constructor
      · rintro ⟨sorted, a, b, after, hsplit, hchain, hlt, rfl⟩
        refine ⟨before :: sorted, a, b, after, by rw [hsplit]; rfl, ?_, hlt, ?_⟩
        · refine List.isChain_cons.mpr ⟨fun w hw => ?_, hchain⟩
          have hw : w = v := by
            cases sorted with
            | nil => exact (Option.some.inj hw).symm.trans (List.cons.inj hsplit).1.symm
            | cons s sorted => exact (Option.some.inj hw).symm.trans (List.cons.inj hsplit).1.symm
          exact hw ▸ not_lt.mp hv
        · rw [List.length_cons, Nat.add_assoc, Nat.add_comm 1]
      · rintro ⟨sorted, a, b, after, hsplit, hchain, hlt, rfl⟩
        cases sorted with
        | nil =>
          obtain ⟨rfl, hrest⟩ := List.cons.inj hsplit
          obtain ⟨rfl, -⟩ := List.cons.inj hrest
          exact absurd hlt hv
        | cons s sorted =>
          refine ⟨sorted, a, b, after, (List.cons.inj hsplit).2, (List.isChain_cons.mp hchain).2,
            hlt, ?_⟩
          rw [List.length_cons, Nat.add_assoc, Nat.add_comm 1]

/-- Values are sorted if no gap between them is negative. -/
theorem isChain_iff_gaps :
    (before :: rest).IsChain (· ≤ ·) ↔ ∀ d ∈ gaps before rest, 0 ≤ d := by
  induction rest generalizing before with
  | nil => exact iff_of_true (List.IsChain.singleton _) (List.forall_mem_nil _)
  | cons v rest ih =>
    rw [List.isChain_cons_cons, gaps, List.forall_mem_cons, ih]
    exact and_congr_left fun _ => Int.sub_nonneg.symm

/-- **The round trip, both ways.** What some values are encoded to is decoded to them, and has no
negative gap; and every list without a negative gap is what its values are encoded to. -/
theorem encode_eq_ok_iff :
    encode values = .ok deltas ↔ decode deltas = values ∧ ∀ d ∈ deltas.tail, 0 ≤ d := by
  cases values with
  | nil =>
    rw [encode, Except.ok.injEq]
    constructor
    · rintro rfl
      exact ⟨rfl, List.forall_mem_nil _⟩
    · rintro ⟨hdecode, -⟩
      cases deltas with
      | nil => rfl
      | cons d deltas => cases hdecode
  | cons v rest =>
    rw [encode]
    constructor
    · intro h
      cases hcheck : checkSorted 1 v rest with
      | some error =>
        rw [hcheck] at h
        cases h
      | none =>
        rw [hcheck] at h
        obtain rfl := Except.ok.inj h
        exact ⟨congrArg (v :: ·) (sums_gaps v rest),
          isChain_iff_gaps.mp (checkSorted_eq_none_iff.mp hcheck)⟩
    · rintro ⟨hdecode, hgaps⟩
      cases deltas with
      | nil => cases hdecode
      | cons d deltas =>
        obtain ⟨rfl, rfl⟩ := List.cons.inj hdecode
        have hcheck : checkSorted 1 d (sums d deltas) = none :=
          checkSorted_eq_none_iff.mpr (isChain_iff_gaps.mpr (by rwa [gaps_sums]))
        rw [hcheck, gaps_sums]

/-- **What is refused.** The encoder refuses values that are not sorted, and names the first that
comes after a greater one. -/
theorem encode_eq_error_iff {error : RelayError} :
    encode values = .error error ↔ ∃ sorted a b after, values = sorted ++ a :: b :: after ∧
      (sorted ++ [a]).IsChain (· ≤ ·) ∧ b < a ∧ error = notSorted (sorted.length + 1) b a := by
  cases values with
  | nil =>
    refine iff_of_false (fun h => by cases h) ?_
    rintro ⟨sorted, a, b, after, hsplit, -⟩
    exact List.append_ne_nil_of_right_ne_nil sorted (List.cons_ne_nil a _) hsplit.symm
  | cons v rest =>
    simp only [Nat.add_comm _ 1]
    rw [← checkSorted_eq_some_iff, encode]
    cases checkSorted 1 v rest with
    | none => exact iff_of_false (fun h => by cases h) fun h => by cases h
    | some error' => rw [Except.error.injEq, Option.some.injEq]

end DeltaEncoding

end Relay
