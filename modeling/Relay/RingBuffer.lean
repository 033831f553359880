import Mathlib.Algebra.Order.Ring.Int
import Mathlib.Data.List.DropRight
import Relay.Errors
import Relay.Lib.Since

/-!
# The ring buffer

The last so many values are kept in a list of fixed length. Once it is full the oldest value is
overwritten, at a position that goes round. The values in order are then those from the position on,
followed by those before it.

Until the first value is overwritten the list itself is in order. At that time the position has just
come back to the start, so the two ways of reading agree.

## Main definitions

* `RingBuffer`, with `append`, `contents`, `size`, `hasWrapped` and `fillNote`
* `ringBuffer`: the buffer as a component

## Main results

* `ringBuffer_answers`: what every call of a run answers, told from the values appended so far
-/

namespace Relay

/-- The buffer. -/
structure RingBuffer where
  capacity : ℤ
  data : List ℤ := []
  pos : ℕ := 0
  wrapped : Bool := false
  capacity_pos : 1 ≤ capacity

/-- What is said of a buffer of which nothing was overwritten. -/
def notWrapped (size : ℕ) (capacity : ℤ) : String :=
  s!"{size}/{capacity} filled, not yet wrapped; a " ++
    "statistic over this is fewer samples than the window " ++
    "implies, understating variance"

namespace RingBuffer

/-- `append`. -/
def append (ring : RingBuffer) (value : ℤ) : RingBuffer :=
  let ring :=
    if (ring.data.length : ℤ) < ring.capacity then { ring with data := ring.data ++ [value] }
    else { ring with data := ring.data.set ring.pos value, wrapped := true }
  { ring with pos := (ring.pos + 1) % ring.capacity.toNat }

/-- `contents`. -/
def contents (ring : RingBuffer) : List ℤ :=
  if !ring.wrapped then ring.data else ring.data.drop ring.pos ++ ring.data.take ring.pos

/-- `size`. -/
def size (ring : RingBuffer) : ℕ := ring.data.length

/-- `has_wrapped`. -/
def hasWrapped (ring : RingBuffer) : Bool := ring.wrapped

/-- `fill_note`. -/
def fillNote (ring : RingBuffer) : String :=
  if !ring.wrapped then notWrapped ring.size ring.capacity
  else s!"full at {ring.capacity}, overwriting the oldest on each append"

end RingBuffer

/-- What is asked of the buffer. -/
inductive RingBufferCall where
  | append (value : ℤ)
  | contents
  | size
  | hasWrapped
  | fillNote
  deriving DecidableEq

/-- What the buffer answers. -/
inductive RingBufferAnswer where
  | append
  | contents (values : List ℤ)
  | size (n : ℕ)
  | hasWrapped (answer : Bool)
  | fillNote (note : String)
  deriving DecidableEq

/-- The buffer as a component. -/
def ringBuffer : Machine RingBuffer RingBufferCall RingBufferAnswer where
  step ring
    | .append value => (.append, ring.append value)
    | .contents => (.contents ring.contents, ring)
    | .size => (.size ring.size, ring)
    | .hasWrapped => (.hasWrapped ring.hasWrapped, ring)
    | .fillNote => (.fillNote ring.fillNote, ring)

/-! ## What the calls say -/

/-- The value that is appended. -/
def appendedValue : RingBufferCall × RingBufferAnswer → Option ℤ
  | (.append value, _) => some value
  | _ => none

/-- The values that were appended, in order. -/
def ringValues (past : List (RingBufferCall × RingBufferAnswer)) : List ℤ :=
  past.filterMap appendedValue

/-- What is answered after some events. -/
def RingAnswers (capacity : ℤ) (past : List (RingBufferCall × RingBufferAnswer)) :
    RingBufferCall × RingBufferAnswer → Prop
  | (.append _, answer) => answer = .append
  | (.contents, answer) => answer = .contents ((ringValues past).rtake capacity.toNat)
  | (.size, answer) => answer = .size (min (ringValues past).length capacity.toNat)
  | (.hasWrapped, answer) =>
    answer = .hasWrapped (decide (capacity.toNat < (ringValues past).length))
  | (.fillNote, answer) =>
    answer = .fillNote (if capacity.toNat < (ringValues past).length then
      s!"full at {capacity}, overwriting the oldest on each append"
      else notWrapped (ringValues past).length capacity)

/-! ## The last values -/

section Rtake

variable {values data : List ℤ} {v : ℤ} {n pos : ℕ}

/-- One more value takes the place of the oldest one. -/
theorem rtake_append_singleton (hn : 0 < n) (hle : n ≤ values.length) :
    (values ++ [v]).rtake n = (values.rtake n).tail ++ [v] := by
  obtain ⟨n, rfl⟩ := Nat.exists_eq_succ_of_ne_zero (Nat.pos_iff_ne_zero.mp hn)
  rw [Nat.succ_eq_add_one, List.rtake_concat_succ, List.rtake, List.rtake, List.tail_drop,
    Nat.sub_add_eq, Nat.sub_add_cancel (by omega)]

/-- All values, if there are not more. -/
theorem rtake_of_length_le (h : values.length ≤ n) : values.rtake n = values := by
  rw [List.rtake, Nat.sub_eq_zero_of_le h, List.drop_zero]

/-- The value at the position is the oldest, and is overwritten by the newest. -/
theorem drop_append_take_set (hpos : pos < data.length) :
    (data.set pos v).drop ((pos + 1) % data.length) ++
        (data.set pos v).take ((pos + 1) % data.length) =
      (data.drop pos ++ data.take pos).tail ++ [v] := by
  have htail : (data.drop pos ++ data.take pos).tail = data.drop (pos + 1) ++ data.take pos := by
    rw [List.drop_eq_getElem_cons hpos]
    rfl
  have hset : data.set pos v = data.take pos ++ [v] ++ data.drop (pos + 1) := by
    rw [List.set_eq_take_append_cons_drop, if_pos hpos, List.append_assoc]
    rfl
  have hlength : (data.take pos ++ [v]).length = pos + 1 := by
    rw [List.length_append, List.length_take_of_le hpos.le, List.length_singleton]
  rw [htail, hset]
  rcases Nat.lt_or_ge (pos + 1) data.length with hlt | hge
  · rw [Nat.mod_eq_of_lt hlt, List.drop_left' hlength, List.take_left' hlength, List.append_assoc]
  · -- the position is the last one
    rw [show pos + 1 = data.length by omega, Nat.mod_self, List.drop_zero, List.take_zero,
      List.drop_length, List.append_nil, List.append_nil, List.nil_append]

end Rtake

/-! ## Every run -/

section Runs

variable {capacity : ℤ} {values : List ℤ} {ring : RingBuffer}

/-- Until the buffer is full it has all values; from then on the values from the position on and
those before it are the last ones. -/
structure KeepsLast (values : List ℤ) (ring : RingBuffer) : Prop where
  filling : values.length < ring.capacity.toNat → ring.data = values ∧ ring.pos = values.length
  full : ring.capacity.toNat ≤ values.length → ring.data.length = ring.capacity.toNat ∧
    ring.pos < ring.capacity.toNat ∧
    ring.data.drop ring.pos ++ ring.data.take ring.pos = values.rtake ring.capacity.toNat
  start : ring.wrapped = false → ring.capacity.toNat ≤ values.length → ring.pos = 0
  wrapped_eq : ring.wrapped = decide (ring.capacity.toNat < values.length)

theorem KeepsLast.append_filling (h : KeepsLast values ring)
    (hlt : values.length < ring.capacity.toNat) (v : ℤ) :
    KeepsLast (values ++ [v]) (ring.append v) := by
  obtain ⟨hdata, hpos⟩ := h.filling hlt
  have hroom : (ring.data.length : ℤ) < ring.capacity := by
    rw [hdata]
    omega
  have hlength : (values ++ [v]).length = values.length + 1 := List.length_append
  rw [RingBuffer.append, if_pos hroom, hdata, hpos]
  refine ⟨fun hmore => ?_, fun hfull => ?_, fun _ hfull => ?_, ?_⟩
  · rw [hlength] at hmore
    exact ⟨rfl, (Nat.mod_eq_of_lt hmore).trans hlength.symm⟩
  · rw [hlength] at hfull
    have heq : values.length + 1 = ring.capacity.toNat := le_antisymm hlt hfull
    have hstart : (values.length + 1) % ring.capacity.toNat = 0 := by rw [heq, Nat.mod_self]
    refine ⟨hlength.trans heq, hstart.trans_lt (Nat.zero_lt_of_lt hlt), ?_⟩
    dsimp only
    rw [hstart, List.drop_zero, List.take_zero, List.append_nil,
      rtake_of_length_le (hlength.trans heq).le]
  · rw [hlength] at hfull
    have heq : values.length + 1 = ring.capacity.toNat := le_antisymm hlt hfull
    exact heq ▸ Nat.mod_self (values.length + 1)
  · refine h.wrapped_eq.trans (decide_eq_decide.mpr ?_)
    rw [hlength]
    exact iff_of_false (Nat.lt_asymm hlt) (Nat.not_lt.mpr hlt)

theorem KeepsLast.append_full (h : KeepsLast values ring)
    (hle : ring.capacity.toNat ≤ values.length) (v : ℤ) :
    KeepsLast (values ++ [v]) (ring.append v) := by
  obtain ⟨hdata, hpos, hrotated⟩ := h.full hle
  have hroom : ¬ (ring.data.length : ℤ) < ring.capacity := by
    rw [hdata]
    omega
  have hlength : (values ++ [v]).length = values.length + 1 := List.length_append
  have hmore : ring.capacity.toNat < (values ++ [v]).length := by
    rw [hlength]
    exact Nat.lt_succ_of_le hle
  rw [RingBuffer.append, if_neg hroom]
  refine ⟨fun hroom => absurd hroom (Nat.lt_asymm hmore), fun _ => ⟨?_, ?_, ?_⟩,
    fun hwrapped => (by cases hwrapped), (decide_eq_true hmore).symm⟩
  · exact List.length_set.trans hdata
  · exact Nat.mod_lt _ (Nat.zero_lt_of_lt hpos)
  · dsimp only
    rw [← hdata, drop_append_take_set (hdata ▸ hpos), hrotated, hdata,
      rtake_append_singleton (Nat.zero_lt_of_lt hpos) hle]

theorem KeepsLast.contents_eq (h : KeepsLast values ring) :
    ring.contents = values.rtake ring.capacity.toNat := by
  rw [RingBuffer.contents]
  rcases Nat.lt_or_ge values.length ring.capacity.toNat with hlt | hge
  · rw [h.wrapped_eq, decide_eq_false (Nat.lt_asymm hlt), (h.filling hlt).1,
      rtake_of_length_le hlt.le]
    rfl
  · obtain ⟨-, -, hrotated⟩ := h.full hge
    cases hwrapped : ring.wrapped with
    | true => exact hrotated
    | false =>
      rw [h.start hwrapped hge, List.drop_zero, List.take_zero, List.append_nil] at hrotated
      exact hrotated

theorem KeepsLast.size_eq (h : KeepsLast values ring) :
    ring.size = min values.length ring.capacity.toNat := by
  rw [RingBuffer.size]
  rcases Nat.lt_or_ge values.length ring.capacity.toNat with hlt | hge
  · rw [(h.filling hlt).1, Nat.min_eq_left hlt.le]
  · rw [(h.full hge).1, Nat.min_eq_right hge]

theorem KeepsLast.fillNote_eq (h : KeepsLast values ring) :
    ring.fillNote = if ring.capacity.toNat < values.length then
      s!"full at {ring.capacity}, overwriting the oldest on each append"
      else notWrapped values.length ring.capacity := by
  rw [RingBuffer.fillNote, h.wrapped_eq, h.size_eq]
  by_cases hlt : ring.capacity.toNat < values.length
  · rw [decide_eq_true hlt, if_pos hlt]
    rfl
  · rw [decide_eq_false hlt, if_neg hlt, Nat.min_eq_left (Nat.not_lt.mp hlt)]
    rfl

/-- A buffer that nothing was appended to. -/
def emptyRing (capacity : ℤ) (h : 1 ≤ capacity) : RingBuffer where
  capacity := capacity
  capacity_pos := h

theorem capacity_append (ring : RingBuffer) (v : ℤ) : (ring.append v).capacity = ring.capacity := by
  rw [RingBuffer.append]
  dsimp only
  split <;> rfl

theorem keepsLast_trace (h : 1 ≤ capacity) (calls : List RingBufferCall) :
    (ringBuffer.final (emptyRing capacity h) calls).capacity = capacity ∧
      KeepsLast (ringValues (ringBuffer.trace (emptyRing capacity h) calls))
        (ringBuffer.final (emptyRing capacity h) calls) := by
  refine Machine.trace_always
    (P := fun past (ring : RingBuffer) =>
      ring.capacity = capacity ∧ KeepsLast (ringValues past) ring)
    (And.intro (Eq.refl (emptyRing capacity h).capacity) ?_) (fun past ring call hkeeps => ?_) calls
  · refine ⟨fun _ => ⟨rfl, rfl⟩, fun hle => ?_, fun _ _ => rfl, ?_⟩
    · have hzero : capacity.toNat = 0 := Nat.le_zero.mp hle
      omega
    · exact (decide_eq_false (Nat.not_lt_zero _)).symm
  · obtain ⟨hcapacity, hkeeps⟩ := hkeeps
    rw [ringValues, List.filterMap_append, ← ringValues]
    cases call with
    | append value =>
      refine ⟨(capacity_append ring value).trans hcapacity, ?_⟩
      rcases Nat.lt_or_ge (ringValues past).length ring.capacity.toNat with hlt | hge
      · exact hkeeps.append_filling hlt value
      · exact hkeeps.append_full hge value
    | contents => exact ⟨hcapacity, (List.append_nil (ringValues past)).symm ▸ hkeeps⟩
    | size => exact ⟨hcapacity, (List.append_nil (ringValues past)).symm ▸ hkeeps⟩
    | hasWrapped => exact ⟨hcapacity, (List.append_nil (ringValues past)).symm ▸ hkeeps⟩
    | fillNote => exact ⟨hcapacity, (List.append_nil (ringValues past)).symm ▸ hkeeps⟩

/-- **The last values.** In every run the contents are the last so many of the values that were
appended, oldest first, or all of them as long as there are not more; and the buffer has wrapped
exactly if there are more. -/
theorem ringBuffer_answers (h : 1 ≤ capacity) (calls : List RingBufferCall) :
    Justified (RingAnswers capacity) (ringBuffer.trace (emptyRing capacity h) calls) := by
  refine Machine.justified_trace (fun calls call => ?_) calls
  have hkeeps := keepsLast_trace h calls
  revert hkeeps
  generalize ringBuffer.final (emptyRing capacity h) calls = ring
  generalize ringBuffer.trace (emptyRing capacity h) calls = past
  rintro ⟨rfl, hkeeps⟩
  cases call with
  | append value => rfl
  | contents => exact congrArg RingBufferAnswer.contents hkeeps.contents_eq
  | size => exact congrArg RingBufferAnswer.size hkeeps.size_eq
  | hasWrapped => exact congrArg RingBufferAnswer.hasWrapped hkeeps.wrapped_eq
  | fillNote => exact congrArg RingBufferAnswer.fillNote hkeeps.fillNote_eq

/-- The third value overwrites the first. -/
theorem ringBuffer_answers_wrapped :
    Justified (RingAnswers 2) (ringBuffer.trace (emptyRing 2 (by decide))
      [.append 1, .append 2, .contents, .append 3, .contents, .fillNote]) :=
  ringBuffer_answers (by decide) _

end Runs

end Relay
