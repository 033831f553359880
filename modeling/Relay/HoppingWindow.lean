import Mathlib.Algebra.Order.Ring.Int
import Mathlib.Data.List.Basic
import Mathlib.Tactic.Ring

/-!
# Hopping windows

A window opens at every multiple of the hop, from zero on, and stays open for the size, which is at
least the hop. A record belongs to all windows that are open at its time.

The earliest of them is computed with one floor division, of a number that is negative as long as
the first window is open, and the rest follow hop by hop up to the time of the record.

## Scope

The report on the overlap is left out.

## Main definitions

* `HoppingWindows`, with `windowsFor` and `overlapFactor`

## Main results

* `windowsFrom_eq`: the loop, in closed form
* `HoppingWindows.coversExactly`: `windowsFor` finds all windows, and how many there are
-/

namespace Relay

/-- Windows of a size, one opened every hop. -/
structure HoppingWindows where
  size : ℤ
  hop : ℤ
  size_pos : 1 ≤ size
  hop_pos : 1 ≤ hop
  hop_le_size : hop ≤ size

namespace HoppingWindows

/-- The loop of `windows_for`, from a start on. -/
def windowsFrom (windows : HoppingWindows) (time start : ℤ) : List ℤ :=
  if start ≤ time then
    let rest := windows.windowsFrom time (start + windows.hop)
    if start ≤ time ∧ time < start + windows.size then start :: rest else rest
  else []
termination_by (time + 1 - start).toNat
decreasing_by
  have := windows.hop_pos
  omega

/-- Where the loop of `windows_for` begins. -/
def earliestStart (windows : HoppingWindows) (time : ℤ) : ℤ :=
  max 0 (((time - windows.size) / windows.hop + 1) * windows.hop)

/-- `windows_for`. -/
def windowsFor (windows : HoppingWindows) (time : ℤ) : List ℤ :=
  windows.windowsFrom time (windows.earliestStart time)

/-- `overlap_factor`. -/
def overlapFactor (windows : HoppingWindows) : ℤ :=
  -(-windows.size / windows.hop)

/-- What is promised of the windows for a record. -/
structure CoversExactly (windows : HoppingWindows) (time : ℤ) : Prop where
  increasing : (windows.windowsFor time).Pairwise (· < ·)
  mem_iff : ∀ start, start ∈ windows.windowsFor time ↔
    (0 ≤ start ∧ windows.hop ∣ start) ∧ start ≤ time ∧ time < start + windows.size
  nonempty : windows.windowsFor time ≠ []
  length_le : (windows.windowsFor time).length ≤ windows.overlapFactor
  le_length : windows.size ≤ time →
    windows.size / windows.hop ≤ (windows.windowsFor time).length

variable (windows : HoppingWindows)

/-! ## The loop -/

/-- How many windows open from a start on up to a time. -/
def openings (time start : ℤ) : ℕ :=
  ((time - start) / windows.hop + 1).toNat

theorem openings_succ {time start : ℤ} (h : start ≤ time) :
    windows.openings time start = windows.openings time (start + windows.hop) + 1 := by
  have hhop := windows.hop_pos
  have hsplit : time - start = time - (start + windows.hop) + 1 * windows.hop := by ring
  have hdiv : (time - start) / windows.hop = (time - (start + windows.hop)) / windows.hop + 1 := by
    rw [hsplit, Int.add_mul_ediv_right _ _ (by omega)]
  have hnonneg : 0 ≤ (time - start) / windows.hop := Int.ediv_nonneg (by omega) (by omega)
  rw [openings, openings, hdiv]
  omega

theorem openings_eq_zero {time start : ℤ} (h : time < start) : windows.openings time start = 0 := by
  have hneg : (time - start) / windows.hop < 0 :=
    Int.ediv_neg_of_neg_of_pos (by omega) windows.hop_pos
  rw [openings]
  omega

/-- **The loop in closed form.** From a window that is open at the time, or later, every window up
to the time is taken. -/
theorem windowsFrom_eq {time start : ℤ} (h : time < start + windows.size) :
    windows.windowsFrom time start =
      (List.range (windows.openings time start)).map fun k : ℕ => start + k * windows.hop := by
  have hhop := windows.hop_pos
  induction start using windowsFrom.induct windows time with
  | case1 start hle hopen ih =>
    rw [windowsFrom, if_pos hle, if_pos hopen, ih (by omega), openings_succ windows hle,
      List.range_succ_eq_map, List.map_cons, List.map_map]
    congr 1
    · push_cast
      ring
    · refine List.map_congr_left fun k _ => ?_
      show _ = start + ((k + 1 : ℕ) : ℤ) * windows.hop
      push_cast
      ring
  | case2 start hle hclosed => exact absurd ⟨hle, h⟩ hclosed
  | case3 start hlt =>
    rw [windowsFrom, if_neg hlt, openings_eq_zero windows (not_le.mp hlt)]
    rfl

/-! ## The first window -/

theorem earliestStart_nonneg (time : ℤ) : 0 ≤ windows.earliestStart time :=
  le_max_left _ _

theorem hop_dvd_earliestStart (time : ℤ) : windows.hop ∣ windows.earliestStart time := by
  rw [earliestStart]
  rcases max_choice 0 (((time - windows.size) / windows.hop + 1) * windows.hop) with h | h
  · rw [h]
    exact dvd_zero _
  · rw [h]
    exact dvd_mul_left _ _

/-- The loop begins at the earliest window that is still open at the time. -/
theorem earliestStart_le_iff {time start : ℤ} (hnonneg : 0 ≤ start) (hdvd : windows.hop ∣ start) :
    windows.earliestStart time ≤ start ↔ time < start + windows.size := by
  have hhop := windows.hop_pos
  obtain ⟨k, rfl⟩ := hdvd
  rw [earliestStart, max_le_iff, and_iff_right hnonneg, mul_comm windows.hop k,
    mul_le_mul_iff_of_pos_right (by omega), Int.add_one_le_iff, Int.ediv_lt_iff_lt_mul (by omega)]
  omega

/-- The earliest window is still open at the time. -/
theorem lt_earliestStart_add_size (time : ℤ) : time < windows.earliestStart time + windows.size :=
  (windows.earliestStart_le_iff (windows.earliestStart_nonneg time)
    (windows.hop_dvd_earliestStart time)).mp le_rfl

/-- Once a window is open, the earliest one has opened. -/
theorem earliestStart_le {time : ℤ} (h : 0 ≤ time) : windows.earliestStart time ≤ time := by
  have hhop := windows.hop_pos
  have hlast : time / windows.hop * windows.hop ≤ time := Int.ediv_mul_le _ (by omega)
  refine le_trans ?_ hlast
  rw [earliestStart_le_iff]
  · have hnext := Int.lt_ediv_add_one_mul_self time hhop
    have hsize := windows.hop_le_size
    rw [add_mul, one_mul] at hnext
    omega
  · exact mul_nonneg (Int.ediv_nonneg h (by omega)) (by omega)
  · exact dvd_mul_left _ _

/-- Beyond the first windows, the earliest one is about to close. -/
theorem earliestStart_le_of_size_le {time : ℤ} (h : windows.size ≤ time) :
    windows.earliestStart time ≤ time - windows.size + windows.hop := by
  have hhop := windows.hop_pos
  have hfloor : (time - windows.size) / windows.hop * windows.hop ≤ time - windows.size :=
    Int.ediv_mul_le _ (by omega)
  rw [earliestStart, max_le_iff, add_mul, one_mul]
  omega

/-! ## The windows for a record -/

theorem windowsFor_eq (time : ℤ) :
    windows.windowsFor time =
      (List.range (windows.openings time (windows.earliestStart time))).map
        fun k : ℕ => windows.earliestStart time + k * windows.hop :=
  windows.windowsFrom_eq (windows.lt_earliestStart_add_size time)

theorem length_windowsFor {time : ℤ} (h : 0 ≤ time) :
    (windows.windowsFor time).length =
      (time - windows.earliestStart time) / windows.hop + 1 := by
  have hle := windows.earliestStart_le h
  have hhop := windows.hop_pos
  have hnonneg : 0 ≤ (time - windows.earliestStart time) / windows.hop :=
    Int.ediv_nonneg (by omega) (by omega)
  rw [windowsFor_eq, List.length_map, List.length_range, openings]
  omega

theorem pairwise_windowsFor (time : ℤ) : (windows.windowsFor time).Pairwise (· < ·) := by
  have hhop := windows.hop_pos
  rw [windowsFor_eq, List.pairwise_map]
  refine List.pairwise_lt_range.imp fun hlt => ?_
  have hmul := mul_lt_mul_of_pos_right (Int.ofNat_lt.mpr hlt) (Int.lt_of_add_one_le hhop)
  omega

/-- A record is in every window that is open at its time, and in no other. -/
theorem mem_windowsFor_iff {time : ℤ} (start : ℤ) :
    start ∈ windows.windowsFor time ↔
      (0 ≤ start ∧ windows.hop ∣ start) ∧ start ≤ time ∧ time < start + windows.size := by
  have hhop := windows.hop_pos
  have hpos : 0 < windows.hop := by omega
  have hmem (k : ℕ) : k < windows.openings time (windows.earliestStart time) ↔
      windows.earliestStart time + k * windows.hop ≤ time := by
    rw [openings, Int.lt_toNat, Int.lt_add_one_iff, Int.le_ediv_iff_mul_le hpos]
    omega
  rw [windowsFor_eq, List.mem_map]
  constructor
  · rintro ⟨k, hk, rfl⟩
    have hnonneg : 0 ≤ windows.earliestStart time + k * windows.hop :=
      add_nonneg (windows.earliestStart_nonneg time)
        (mul_nonneg (Int.natCast_nonneg k) hpos.le)
    have hdvd : windows.hop ∣ windows.earliestStart time + k * windows.hop :=
      Int.dvd_add (windows.hop_dvd_earliestStart time) (dvd_mul_left _ _)
    refine ⟨⟨hnonneg, hdvd⟩, (hmem k).mp (List.mem_range.mp hk), ?_⟩
    rw [← earliestStart_le_iff windows hnonneg hdvd]
    exact le_add_of_nonneg_right (mul_nonneg (Int.natCast_nonneg k) hpos.le)
  · rintro ⟨⟨hnonneg, hdvd⟩, hle, hlt⟩
    have hearliest := (windows.earliestStart_le_iff hnonneg hdvd).mpr hlt
    obtain ⟨m, hm⟩ := Int.dvd_sub hdvd (windows.hop_dvd_earliestStart time)
    have hm_nonneg : 0 ≤ m := by
      refine nonneg_of_mul_nonneg_right ?_ hpos
      omega
    obtain ⟨k, rfl⟩ := Int.eq_ofNat_of_zero_le hm_nonneg
    rw [mul_comm] at hm
    refine ⟨k, List.mem_range.mpr ((hmem k).mpr ?_), ?_⟩
    · omega
    · omega

/-- **A record is in the windows that are open at its time.** -/
theorem coversExactly {time : ℤ} (h : 0 ≤ time) : CoversExactly windows time := by
  have hhop := windows.hop_pos
  have hpos : 0 < windows.hop := by omega
  have hlength := windows.length_windowsFor h
  refine ⟨windows.pairwise_windowsFor time, windows.mem_windowsFor_iff, ?_, ?_, fun hsize => ?_⟩
  · intro hnil
    have hnonneg : 0 ≤ (time - windows.earliestStart time) / windows.hop :=
      Int.ediv_nonneg (Int.sub_nonneg_of_le (windows.earliestStart_le h)) hpos.le
    rw [hnil, List.length_nil] at hlength
    omega
  · have hfloor := Int.ediv_mul_le (time - windows.earliestStart time) hpos.ne'
    have hopen := windows.lt_earliestStart_add_size time
    have hneg : -windows.size / windows.hop <
        -((time - windows.earliestStart time) / windows.hop) := by
      rw [Int.ediv_lt_iff_lt_mul hpos, neg_mul]
      omega
    rw [hlength, overlapFactor]
    omega
  · have hearliest := windows.earliestStart_le_of_size_le hsize
    have hmono : windows.size / windows.hop ≤
        (time - windows.earliestStart time + 1 * windows.hop) / windows.hop :=
      Int.ediv_le_ediv hpos (by omega)
    rw [Int.add_mul_ediv_right _ _ hpos.ne'] at hmono
    rw [hlength]
    exact hmono

/-- A size that is no multiple of the hop, past the first windows. -/
theorem coversExactly_twelve :
    CoversExactly ⟨10, 4, by decide, by decide, by decide⟩ 12 :=
  coversExactly _ (by decide)

example : windowsFor ⟨10, 4, by decide, by decide, by decide⟩ 12 = [4, 8, 12] := by
  rw [windowsFor_eq]
  rfl

end HoppingWindows

end Relay
