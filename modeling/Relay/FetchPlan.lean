import Mathlib.Algebra.Order.BigOperators.Group.List
import Mathlib.Algebra.Order.Ring.Int
import Relay.Errors

/-!
# Fetch planning

A consumer names a number of bytes that it wants and a time it will wait, and the broker answers as
soon as there are so many bytes or the time is over. The response is bounded as well, so records
are only packed while they fit.

The planner stops at the first record that does not fit behind those it has packed. If these are
less than the consumer wanted, it holds them back, although with that record there are more than
enough bytes: they cannot be packed up to the mark, however many there are, until the wait runs
out. Whenever the wait is over, or no such record stands in the way (`Unblocked`), the planner keeps
its contract, and only then.

## Main definitions

* `FetchRequest` and `planFetch`
* `Contract`: what a response promises

## Main results

* `fill_filled`: how the packing loop ends
* `contract_iff`: exactly when a response keeps the promise
-/

namespace Relay

namespace FetchPlan

/-- What a consumer asks for. -/
structure FetchRequest where
  minBytes : ℤ
  maxBytes : ℤ
  maxWaitTicks : ℤ
  bounds : 0 ≤ minBytes ∧ 1 ≤ maxBytes
  min_le_max : minBytes ≤ maxBytes
  wait_nonneg : 0 ≤ maxWaitTicks

/-- What it is sent. -/
structure FetchResult where
  recordsReturned : ℕ
  bytesReturned : ℤ
  reason : String
  deriving DecidableEq

/-- The loop of `plan_fetch`: it comes to a result, or to a batch and its bytes. -/
def fill (request : FetchRequest) : List ℤ → List ℤ → ℤ → FetchResult ⊕ (List ℤ × ℤ)
  | [], batch, total => .inr (batch, total)
  | size :: sizes, batch, total =>
    if batch ≠ [] ∧ request.maxBytes < total + size then .inr (batch, total)
    else if request.maxBytes < size then
      .inl ⟨1, size, "single record exceeds max-bytes, returned "
        ++ "alone because progress on an awkward record beats deadlock on principle"⟩
    else if request.minBytes ≤ total + size then
      .inl ⟨(batch ++ [size]).length, total + size, "min-bytes reached, sent immediately"⟩
    else fill request sizes (batch ++ [size]) (total + size)

/-- `plan_fetch`. -/
def planFetch (request : FetchRequest) (availableSizes : List ℤ) (nowWait : ℤ) : FetchResult :=
  match fill request availableSizes [] 0 with
  | .inl result => result
  | .inr (batch, total) =>
    if request.maxWaitTicks ≤ nowWait then
      ⟨batch.length, total, s!"max-wait of {request.maxWaitTicks} expired "
        ++ "with a partial batch, sent so a quiet partition never hangs"⟩
    else
      ⟨0, 0, s!"holding: {total} of {request.minBytes} bytes, "
        ++ s!"{request.maxWaitTicks - nowWait} tick(s) of patience left"⟩

/-- Records are held back only while there are too few bytes and the wait is not over. Otherwise a
prefix of them is sent, with its bytes, and only a single record may exceed the ceiling. Where there
are none, none are sent. -/
structure Contract (request : FetchRequest) (sizes : List ℤ) (nowWait : ℤ) (result : FetchResult) :
    Prop where
  held : result.recordsReturned = 0 → sizes ≠ [] →
    sizes.sum < request.minBytes ∧ nowWait < request.maxWaitTicks
  sent : result.recordsReturned ≠ 0 → result.recordsReturned ≤ sizes.length ∧
    result.bytesReturned = (sizes.take result.recordsReturned).sum ∧
    (result.bytesReturned ≤ request.maxBytes ∨ result.recordsReturned = 1)
  none_available : sizes = [] → result.recordsReturned = 0 ∧ result.bytesReturned = 0

/-- Behind a batch that is too small, the next record always fits. -/
def Unblocked (request : FetchRequest) (batch sizes : List ℤ) : Prop :=
  ∀ before size after, sizes = before ++ size :: after → batch ++ before ≠ [] →
    (batch ++ before).sum < request.minBytes →
    (batch ++ before).sum + size ≤ request.maxBytes

/-! ### How the loop ends -/

variable {request : FetchRequest} {batch sizes : List ℤ}

theorem unblocked_nil : Unblocked request batch [] := by
  intro before size after h
  cases before <;> cases h

theorem unblocked_cons_iff {size : ℤ} :
    Unblocked request batch (size :: sizes) ↔
      (batch ≠ [] → batch.sum < request.minBytes → batch.sum + size ≤ request.maxBytes) ∧
        Unblocked request (batch ++ [size]) sizes := by
  constructor
  · intro h
    refine ⟨fun hne hshort => ?_, fun before next after hsizes _ hshort => ?_⟩
    · have hfirst := h [] size sizes rfl
      rw [List.append_nil] at hfirst
      exact hfirst hne hshort
    · have hlater := h (size :: before) next after (by rw [hsizes, List.cons_append])
      rw [List.append_cons] at hlater
      exact hlater (by simp) hshort
  · rintro ⟨hfirst, hlater⟩ before next after hsizes hne hshort
    cases before with
    | nil =>
      obtain ⟨rfl, rfl⟩ := List.cons.inj hsizes
      rw [List.append_nil] at hne hshort ⊢
      exact hfirst hne hshort
    | cons head before =>
      obtain ⟨rfl, hrest⟩ := List.cons.inj hsizes
      rw [List.append_cons] at hshort ⊢
      exact hlater before next after hrest (by simp) hshort

/-- Nothing stands in the way of a batch that is large enough. -/
theorem unblocked_of_enough (hsizes : ∀ size ∈ sizes, 0 ≤ size)
    (henough : request.minBytes ≤ batch.sum) : Unblocked request batch sizes := by
  rintro before size after rfl - hshort
  have hnonneg : 0 ≤ before.sum := List.sum_nonneg fun s hs =>
    hsizes s (List.mem_append_left _ hs)
  rw [List.sum_append] at hshort
  omega

/-- How the loop ends over the sizes behind a batch: it has found enough, or run out of records, or
come to one that does not fit. -/
inductive Filled (request : FetchRequest) (batch sizes : List ℤ) :
    FetchResult ⊕ (List ℤ × ℤ) → Prop
  | sent (n : ℕ) (bytes : ℤ) (reason : String) (hpos : 0 < n) (hle : n ≤ (batch ++ sizes).length)
      (htake : bytes = ((batch ++ sizes).take n).sum) (hbytes : bytes ≤ request.maxBytes ∨ n = 1)
      (hclear : Unblocked request batch sizes) :
      Filled request batch sizes (.inl ⟨n, bytes, reason⟩)
  | short (hshort : batch ++ sizes = [] ∨ (batch ++ sizes).sum < request.minBytes)
      (hclear : Unblocked request batch sizes) :
      Filled request batch sizes (.inr (batch ++ sizes, (batch ++ sizes).sum))
  | blocked (packed left : List ℤ) (hall : batch ++ sizes = packed ++ left) (hne : packed ≠ [])
      (hshort : packed.sum < request.minBytes)
      (henough : request.minBytes ≤ (batch ++ sizes).sum)
      (hblocked : ¬ Unblocked request batch sizes) :
      Filled request batch sizes (.inr (packed, packed.sum))

/-- One record more in the batch. -/
theorem Filled.cons {size : ℤ} {outcome : FetchResult ⊕ (List ℤ × ℤ)}
    (h : Filled request (batch ++ [size]) sizes outcome)
    (hfits : batch ≠ [] → batch.sum < request.minBytes → batch.sum + size ≤ request.maxBytes) :
    Filled request batch (size :: sizes) outcome := by
  have hiff : Unblocked request batch (size :: sizes) ↔ Unblocked request (batch ++ [size]) sizes :=
    unblocked_cons_iff.trans (and_iff_right hfits)
  have hall : batch ++ size :: sizes = batch ++ [size] ++ sizes := List.append_cons ..
  cases h with
  | sent n bytes reason hpos hle htake hbytes hclear =>
    rw [← hall] at hle htake
    exact .sent n bytes reason hpos hle htake hbytes (hiff.mpr hclear)
  | short hshort hclear =>
    rw [← hall] at hshort ⊢
    exact .short hshort (hiff.mpr hclear)
  | blocked packed left heq hne hshort henough hblocked =>
    rw [← hall] at heq henough
    exact .blocked packed left heq hne hshort henough fun h => hblocked (hiff.mp h)

/-- **How the loop ends.** -/
theorem fill_filled (hbatch : batch = [] ∨ batch.sum < request.minBytes)
    (hnonneg : ∀ size ∈ batch ++ sizes, 0 ≤ size) :
    Filled request batch sizes (fill request sizes batch batch.sum) := by
  induction sizes generalizing batch with
  | nil =>
    have hshort : Filled request batch [] (.inr (batch ++ [], (batch ++ []).sum)) :=
      .short (by rwa [List.append_nil]) unblocked_nil
    rwa [List.append_nil] at hshort
  | cons size sizes ih =>
    have hmin := request.min_le_max
    have hsize : 0 ≤ size := hnonneg size (by simp)
    have hrest : 0 ≤ sizes.sum := List.sum_nonneg fun s hs => hnonneg s (by simp [hs])
    have hbatchsum : 0 ≤ batch.sum := List.sum_nonneg fun s hs => hnonneg s (by simp [hs])
    have hsum : (batch ++ size :: sizes).sum = batch.sum + (size + sizes.sum) := by
      rw [List.sum_append, List.sum_cons]
    have hnext : (batch ++ [size]).sum = batch.sum + size := by
      rw [List.sum_append, List.sum_singleton]
    rw [fill]
    split_ifs with hfull hlarge henough
    · -- the record does not fit, and whatever was packed is too little
      obtain ⟨hne, hover⟩ := hfull
      have hshort := hbatch.resolve_left hne
      refine .blocked batch (size :: sizes) rfl hne hshort (by omega) fun h => ?_
      have hfits := (unblocked_cons_iff.mp h).1 hne hshort
      omega
    all_goals
      have hfits : batch ≠ [] → batch.sum + size ≤ request.maxBytes := fun hne =>
        not_lt.mp fun hover => hfull ⟨hne, hover⟩
      have hrecords : ∀ s ∈ sizes, 0 ≤ s := fun s hs => hnonneg s (by simp [hs])
    · -- only a record at the front can be larger than the ceiling
      have hempty : batch = [] := by
        by_contra hne
        have hroom := hfits hne
        omega
      subst hempty
      refine .sent 1 _ _ Nat.one_pos (by simp) (by simp) (Or.inr rfl) ?_
      exact unblocked_cons_iff.mpr ⟨fun hne => absurd rfl hne,
        unblocked_of_enough hrecords (by rw [hnext]; omega)⟩
    · refine .sent _ _ _ (by simp) (by simp) ?_ (Or.inl ?_) ?_
      · rw [List.append_cons batch size sizes, List.take_left, hnext]
      · rcases eq_or_ne batch [] with rfl | hne
        · simpa using not_lt.mp hlarge
        · exact hfits hne
      · exact unblocked_cons_iff.mpr ⟨fun hne _ => hfits hne,
          unblocked_of_enough hrecords (by rw [hnext]; omega)⟩
    · rw [← hnext]
      refine (ih (Or.inr (by rw [hnext]; omega)) ?_).cons fun hne _ => hfits hne
      rwa [List.append_assoc]

/-- A packing without an answer is a prefix that is too small, and empty only where nothing is. -/
theorem Filled.packing {packed : List ℤ} {total : ℤ}
    (h : Filled request batch sizes (.inr (packed, total))) :
    total = packed.sum ∧ ∃ left, batch ++ sizes = packed ++ left ∧
      (packed = [] ∧ left = [] ∨ packed ≠ [] ∧ packed.sum < request.minBytes) := by
  cases h with
  | short hshort hclear =>
    refine ⟨rfl, [], (List.append_nil _).symm, ?_⟩
    rcases eq_or_ne (batch ++ sizes) [] with hnil | hne
    · exact Or.inl ⟨hnil, rfl⟩
    · exact Or.inr ⟨hne, hshort.resolve_left hne⟩
  | blocked packed left hall hne hshort henough hblocked =>
    exact ⟨rfl, left, hall, Or.inr ⟨hne, hshort⟩⟩

/-! ### The contract -/

/-- **The contract.** A response keeps it exactly when the wait is over, or whenever a prefix of the
records is less than the consumer wants, the next record fits behind it. -/
theorem contract_iff (request : FetchRequest) (sizes : List ℤ) (nowWait : ℤ)
    (hsizes : ∀ size ∈ sizes, 0 ≤ size) :
    Contract request sizes nowWait (planFetch request sizes nowWait) ↔
      request.maxWaitTicks ≤ nowWait ∨ Unblocked request [] sizes := by
  have hmin := request.min_le_max
  have hfilled : Filled request [] sizes (fill request sizes [] 0) :=
    fill_filled (Or.inl rfl) hsizes
  rw [planFetch]
  cases hfill : fill request sizes [] 0 with
  | inl result =>
    rw [hfill] at hfilled
    cases hfilled with
    | sent n bytes reason hpos hle htake hbytes hclear =>
      refine iff_of_true ⟨fun hzero => absurd hzero hpos.ne', fun _ => ⟨hle, htake, hbytes⟩, ?_⟩
        (Or.inr hclear)
      rintro rfl
      exact absurd hle hpos.not_ge
  | inr packing =>
    rw [hfill] at hfilled
    obtain ⟨packed, total⟩ := packing
    show Contract request sizes nowWait (ite _ _ _) ↔ _
    split
    · next hover =>
      -- the wait is over: what has been packed is sent
      obtain ⟨rfl, left, hall, hpacked⟩ := hfilled.packing
      change sizes = packed ++ left at hall
      refine iff_of_true ?_ (Or.inl hover)
      rcases hpacked with ⟨rfl, rfl⟩ | ⟨hne, hshort⟩
      · exact ⟨fun _ hne => absurd hall hne, fun hzero => absurd rfl hzero, fun _ => ⟨rfl, rfl⟩⟩
      · refine ⟨fun hzero => absurd (List.length_eq_zero_iff.mp hzero) hne, fun _ => ?_, ?_⟩
        · rw [hall]
          refine ⟨by simp, by rw [List.take_left], Or.inl ?_⟩
          show packed.sum ≤ request.maxBytes
          omega
        · rintro rfl
          exact absurd (List.append_eq_nil_iff.mp hall.symm).1 hne
    · next hpatience =>
      cases hfilled with
      | short hshort hclear =>
        exact iff_of_true ⟨fun _ hne => ⟨hshort.resolve_left hne, not_le.mp hpatience⟩,
          fun hzero => absurd rfl hzero, fun _ => ⟨rfl, rfl⟩⟩ (Or.inr hclear)
      | blocked packed left hall hne hshort henough hblocked =>
        -- there are enough bytes, and they are held back
        refine iff_of_false (fun h => ?_) (not_or.mpr ⟨hpatience, hblocked⟩)
        have hsome : sizes ≠ [] := by
          rintro rfl
          exact hne (List.append_eq_nil_iff.mp hall.symm).1
        exact henough.not_gt (h.held rfl hsome).1

/-- A request for a hundred bytes, and one for exactly ten. -/
def patient : FetchRequest := ⟨100, 1000, 50, by decide, by decide, by decide⟩

def exact : FetchRequest := ⟨10, 10, 50, by decide, by decide, by decide⟩

theorem contract_patient : Contract patient [60, 60] 0 (planFetch patient [60, 60] 0) := by
  refine (contract_iff patient [60, 60] 0 (by decide)).mpr (Or.inr ?_)
  simp [unblocked_cons_iff, unblocked_nil, patient]

/-- Fourteen bytes are there and ten are wanted, but the first record and the second do not fit into
ten. -/
theorem enough_held_back : ¬ Contract exact [9, 5] 0 (planFetch exact [9, 5] 0) := fun h =>
  absurd (h.held (by decide) (by decide)).1 (by decide)

end FetchPlan

end Relay
