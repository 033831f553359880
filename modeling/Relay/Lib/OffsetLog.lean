import Mathlib.Data.List.Basic
import Mathlib.Data.Nat.Notation
import Mathlib.Data.Int.Notation

/-!
# Numbered lists, and a log addressed by offset

`numbered l` is the list `l` with each entry beside its position, counted from zero. Positions are
integers: they stand for offsets and sequence numbers that a caller may get wrong in either
direction.

## A retained window

What an append-only log is for, before any question of how it is stored: everything ever
written, in order, of which the part from some offset on can still be read. Writing extends the
sequence at its end, trimming moves the start of the window up, and neither changes the offset of
anything.

A read outside the window says which side it fell off.

## Main definitions

* `numbered`
* `Counts`: a list of integers that reads `0`, `1`, `2`, and so on
* `OffsetLog`, with `append`, `trim` and `read`
* `OffsetLog.Reading`: what a read finds
-/

namespace Relay

/-! ### Numbered lists -/

section Numbered

variable {α : Type*}

/-- The entries of a list, each beside its position. -/
def numbered (l : List α) : List (ℤ × α) := l.zipIdx.map fun x => ((x.2 : ℤ), x.1)

@[simp] theorem numbered_nil : numbered ([] : List α) = [] := rfl

@[simp] theorem length_numbered (l : List α) : (numbered l).length = l.length := by
  simp [numbered]

/-- One more entry has the next number. -/
theorem numbered_append_singleton (l : List α) (a : α) :
    numbered (l ++ [a]) = numbered l ++ [((l.length : ℤ), a)] := by
  simp [numbered, List.zipIdx_append]

/-- The list reads `0`, `1`, `2`, and so on. -/
def Counts (l : List ℤ) : Prop := l = (List.range l.length).map fun n : ℕ => (n : ℤ)

instance (l : List ℤ) : Decidable (Counts l) :=
  inferInstanceAs (Decidable (l = (List.range l.length).map fun n : ℕ => (n : ℤ)))

theorem counts_nil : Counts [] := rfl

/-- A list that counts goes on with its length. -/
theorem counts_append_singleton {l : List ℤ} {n : ℤ} :
    Counts (l ++ [n]) ↔ Counts l ∧ n = l.length := by
  rw [Counts, List.length_append, List.length_singleton, List.range_succ, List.map_append,
    List.map_singleton, List.append_eq_append_iff_of_size_eq_right (by simp), ← Counts,
    List.singleton_inj]

/-- Counting finds every number below the length once. -/
theorem Counts.mem_iff {l : List ℤ} (h : Counts l) {n : ℤ} : n ∈ l ↔ 0 ≤ n ∧ n < l.length := by
  constructor
  · intro hmem
    rw [h, List.mem_map] at hmem
    obtain ⟨i, hi, rfl⟩ := hmem
    exact ⟨by omega, by simpa using hi⟩
  · rintro ⟨hnonneg, hlt⟩
    rw [h, List.mem_map]
    exact ⟨n.toNat, List.mem_range.mpr (by omega), by omega⟩

theorem map_fst_numbered (l : List α) :
    (numbered l).map Prod.fst = (List.range l.length).map fun n : ℕ => (n : ℤ) := by
  rw [numbered, List.map_map, List.range_eq_range', ← List.zipIdx_map_snd 0 l, List.map_map]
  rfl

/-- The numbers of a numbered list count. -/
theorem counts_map_fst_numbered (l : List α) : Counts ((numbered l).map Prod.fst) := by
  rw [Counts, List.length_map, length_numbered, map_fst_numbered]

/-- What stands at a number. -/
theorem mem_numbered {l : List α} {n : ℤ} {a : α} :
    (n, a) ∈ numbered l ↔ 0 ≤ n ∧ l[n.toNat]? = some a := by
  simp only [numbered, List.mem_map, Prod.mk.injEq, Prod.exists]
  constructor
  · rintro ⟨b, i, hmem, rfl, rfl⟩
    exact ⟨by omega, by simpa using List.mem_zipIdx_iff_getElem?.mp hmem⟩
  · rintro ⟨hnonneg, hget⟩
    exact ⟨a, n.toNat, List.mem_zipIdx_iff_getElem?.mpr hget, by omega, rfl⟩

end Numbered

/-! ### Logs -/

/-- Everything ever written, and the offset from which it is still retained. -/
structure OffsetLog (α : Type*) where
  /-- Everything ever written; the entry at index `i` has offset `i`. -/
  written : List α
  /-- The first retained offset. -/
  start : ℕ
  start_le : start ≤ written.length

namespace OffsetLog

variable {α : Type*}

/-- The log nothing was written to. -/
def empty : OffsetLog α := ⟨[], 0, Nat.le_refl 0⟩

/-- Write one more entry. -/
def append (l : OffsetLog α) (a : α) : OffsetLog α :=
  ⟨l.written ++ [a], l.start, by rw [List.length_append]; exact Nat.le_add_right_of_le l.start_le⟩

/-- Forget the entries below `n`. -/
def trim (l : OffsetLog α) (n : ℕ) (h : n ≤ l.written.length) : OffsetLog α := ⟨l.written, n, h⟩

@[simp] theorem append_written (l : OffsetLog α) (a : α) :
    (l.append a).written = l.written ++ [a] := rfl

@[simp] theorem append_start (l : OffsetLog α) (a : α) : (l.append a).start = l.start := rfl

@[simp] theorem trim_written (l : OffsetLog α) (n : ℕ) (h : n ≤ l.written.length) :
    (l.trim n h).written = l.written := rfl

@[simp] theorem trim_start (l : OffsetLog α) (n : ℕ) (h : n ≤ l.written.length) :
    (l.trim n h).start = n := rfl

/-- What a read finds at an offset. -/
inductive Reading (α : Type*) where
  /-- Written once, and since then forgotten. -/
  | lagging
  /-- Not written yet. -/
  | missing
  /-- Retained. -/
  | found (a : α)

/-- Read one offset. -/
def read (l : OffsetLog α) (o : ℤ) : Reading α :=
  if o < l.start then .lagging
  else match l.written[o.toNat]? with
    | some a => .found a
    | none => .missing

/-- A read lags behind if its offset was trimmed. -/
theorem read_eq_lagging_iff {l : OffsetLog α} {o : ℤ} : l.read o = .lagging ↔ o < l.start := by
  rw [read]
  split
  · next h => simp [h]
  · next h => cases hw : l.written[o.toNat]? <;> simp [h]

/-- Nothing is found beyond the end. -/
theorem read_eq_missing_iff {l : OffsetLog α} {o : ℤ} :
    l.read o = .missing ↔ (l.written.length : ℤ) ≤ o := by
  have hle := l.start_le
  rw [read]
  split
  · next h => simp only [reduceCtorEq, false_iff]; omega
  · next h =>
    cases hw : l.written[o.toNat]? with
    | none =>
      have := List.getElem?_eq_none_iff.mp hw
      simp only [true_iff]; omega
    | some a =>
      obtain ⟨hlt, -⟩ := List.getElem?_eq_some_iff.mp hw
      simp only [reduceCtorEq, false_iff]; omega

/-- What a read finds was written at its offset, and is still there. -/
theorem read_eq_found_iff {l : OffsetLog α} {o : ℤ} {a : α} :
    l.read o = .found a ↔ (l.start : ℤ) ≤ o ∧ l.written[o.toNat]? = some a := by
  rw [read]
  split
  · next h => simp only [reduceCtorEq, false_iff]; omega
  · next h =>
    have h' : (l.start : ℤ) ≤ o := by omega
    cases hw : l.written[o.toNat]? <;> simp [h']

/-- Inside the window a read always finds something. -/
theorem exists_read_eq_found {l : OffsetLog α} {o : ℤ} (hs : (l.start : ℤ) ≤ o)
    (hw : o < l.written.length) : ∃ a, l.read o = .found a := by
  have hlt : o.toNat < l.written.length := by omega
  exact ⟨l.written[o.toNat], read_eq_found_iff.mpr ⟨hs, List.getElem?_eq_getElem hlt⟩⟩

end OffsetLog

end Relay
