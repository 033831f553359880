import Mathlib.Data.List.Basic
import Relay.Errors
import Relay.Lib.ShiftRegister
import Relay.Records

/-!
# The checksum of a batch

A batch carries a CRC-32C of its contents, computed a byte at a time with a table. The polynomial is
reflected, so the register shifts down and takes in the lowest bit of each byte first; it starts
with all bits set, and its complement is the checksum.

`crcBitwise` is what the checksum is defined to be, one bit at a time. The table only saves seven of
eight steps: both are ways of feeding the same message to the same shift register, in words of one
bit and of eight.

The polynomial has the register's top bit, so the register loses nothing. Damage that is confined to
four bytes, which is as much as the register holds, therefore always changes the checksum.

## Main definitions

* `crc32c`, `verify` and `checkBatch`
* `crcBitwise`: the definition by bits

## Main results

* `crc32c_eq_crcBitwise`: the table computes the definition, within 32 bits
* `exists_checkBatch_eq_ok_iff`: a batch is taken with its own checksum and no other
* `verify_eq_false_of_burst`: damage within four consecutive bytes is noticed
-/

namespace Relay

namespace Crc32c

open ShiftRegister

/-- `_POLY`. -/
def poly : ℕ := 0x82F63B78

/-- `_MASK`. -/
def mask : ℕ := 0xFFFFFFFF

/-- `_build_table`: what eight steps make of each byte. -/
def buildTable : List ℕ := (List.range 256).map fun n => (step poly)^[8] n &&& mask

/-- `_TABLE`. -/
def table : List ℕ := buildTable

/-- The loop body of `crc32c`. -/
def crcByte (crc : ℕ) (byte : UInt8) : ℕ :=
  table.getD ((crc ^^^ byte.toNat) &&& 0xFF) 0 ^^^ (crc >>> 8)

/-- `crc32c`. -/
def crc32c (data : Bytes) : ℕ := data.foldl crcByte mask ^^^ mask

/-- `verify`. -/
def verify (data : Bytes) (stored : ℤ) : Except RelayError Bool :=
  if ¬ (0 ≤ stored ∧ stored ≤ mask) then
    .error (.invalid ("the stored CRC is not a 32-bit value; a checksum "
      ++ "field that overflowed its width is itself evidence "
      ++ "of a corrupt header, not a number to compare against"))
  else .ok (decide ((crc32c data : ℤ) = stored))

/-- A number in eight hexadecimal digits or more. -/
def hex8 (n : ℕ) : String :=
  let digits := Nat.toDigits 16 n
  String.ofList (List.replicate (8 - digits.length) '0' ++ digits)

/-- `check_batch`. -/
def checkBatch (data : Bytes) (stored : ℤ) : Except RelayError String := do
  if ← verify data stored then
    return s!"batch verified, crc 0x{hex8 stored.toNat}"
  throw (.invalid (s!"batch crc mismatch: computed 0x{hex8 (crc32c data)} but "
    ++ s!"header says 0x{hex8 stored.toNat}; the batch is corrupt and "
    ++ "must be refused, not appended, or the corruption persists"))

/-! ## The definition by bits -/

/-- The bits of a byte, lowest first. -/
def bits (byte : UInt8) : List ℕ := (List.range 8).map fun i => (byte.toNat >>> i) &&& 1

/-- One bit of the message: the register shifts down, and the polynomial is added if the bit shifted
out differs from the message bit. -/
def shiftIn (crc bit : ℕ) : ℕ :=
  if (crc ^^^ bit) &&& 1 = 1 then (crc >>> 1) ^^^ poly else crc >>> 1

/-- The CRC-32C of a message, one bit at a time. -/
def crcBitwise (data : Bytes) : ℕ := (data.flatMap bits).foldl shiftIn mask ^^^ mask

/-! ## The register -/

theorem full_poly : Full poly 31 := ⟨by decide, by decide⟩

theorem mask_lt : mask < 2 ^ 32 := by decide

theorem shiftIn_eq_feed {bit : ℕ} (h : bit < 2) (crc : ℕ) :
    shiftIn crc bit = feed poly 1 crc bit := by
  have hbit : bit >>> 1 = 0 := by rw [Nat.shiftRight_one, Nat.div_eq_of_lt h]
  rw [shiftIn, feed, Function.iterate_one, step, Nat.shiftRight_xor_distrib, hbit, Nat.xor_zero]

theorem lt_two_of_mem_bits {byte : UInt8} {bit : ℕ} (h : bit ∈ bits byte) : bit < 2 := by
  obtain ⟨i, -, rfl⟩ := List.mem_map.mp h
  rw [Nat.and_one_is_mod]
  exact Nat.mod_lt _ (by decide)

/-- The lowest bits of a number are its digits. -/
theorem ofDigits_bits (n k : ℕ) :
    Nat.ofDigits 2 ((List.range k).map fun i => (n >>> i) &&& 1) = n % 2 ^ k := by
  induction k with
  | zero => simp [Nat.mod_one]
  | succ k ih =>
    rw [List.range_succ, List.map_append, Nat.ofDigits_append, ih, List.length_map,
      List.length_range, List.map_singleton, Nat.ofDigits_singleton, Nat.and_one_is_mod,
      Nat.shiftRight_eq_div_pow, Nat.mod_pow_succ]

/-- The bits of a byte, one after the other, are the byte. -/
theorem foldl_bits (crc : ℕ) (byte : UInt8) :
    (bits byte).foldl shiftIn crc = feed poly 8 crc byte.toNat := by
  have hfeed : (bits byte).foldl shiftIn crc = (bits byte).foldl (feed poly 1) crc :=
    List.foldl_ext _ _ _ fun crc bit hbit => shiftIn_eq_feed (lt_two_of_mem_bits hbit) crc
  rw [hfeed, foldl_feed poly 1 crc fun bit hbit => lt_two_of_mem_bits hbit, feed, bits,
    Nat.pow_one, ofDigits_bits, Nat.mod_eq_of_lt byte.toNat_lt]
  rfl

/-- The table lookup is eight steps. -/
theorem crcByte_eq_feed (crc : ℕ) (byte : UInt8) :
    crcByte crc byte = feed poly 8 crc byte.toNat := by
  have hlow : (crc ^^^ byte.toNat) &&& 0xFF = (crc ^^^ byte.toNat) % 2 ^ 8 :=
    Nat.and_two_pow_sub_one_eq_mod _ 8
  have hlt : (crc ^^^ byte.toNat) % 2 ^ 8 < 256 := Nat.mod_lt _ (by decide)
  have hentry : table.getD ((crc ^^^ byte.toNat) % 2 ^ 8) 0 =
      (step poly)^[8] ((crc ^^^ byte.toNat) % 2 ^ 8) := by
    rw [table, buildTable, List.getD_eq_getElem?_getD, List.getElem?_map, List.getElem?_range hlt]
    have hregister : (step poly)^[8] ((crc ^^^ byte.toNat) % 2 ^ 8) < 2 ^ 32 :=
      full_poly.steps_lt (hlt.trans (by decide)) 8
    exact (Nat.and_two_pow_sub_one_eq_mod _ 32).trans (Nat.mod_eq_of_lt hregister)
  have hbyte : byte.toNat >>> 8 = 0 := by
    rw [Nat.shiftRight_eq_div_pow, Nat.div_eq_of_lt byte.toNat_lt]
  rw [crcByte, hlow, hentry, feed, steps_eq_xor_shiftRight poly 8 (crc ^^^ byte.toNat),
    Nat.shiftRight_xor_distrib, hbyte, Nat.xor_zero]

/-- The register after some bytes. -/
theorem foldl_crcByte (crc : ℕ) (data : Bytes) :
    data.foldl crcByte crc = (data.map UInt8.toNat).foldl (feed poly 8) crc := by
  rw [List.foldl_map]
  exact List.foldl_ext _ _ _ fun crc byte _ => crcByte_eq_feed crc byte

theorem toNat_lt_of_mem {data : Bytes} : ∀ w ∈ data.map UInt8.toNat, w < 2 ^ 8 :=
  List.forall_mem_map.mpr fun byte _ => byte.toNat_lt

theorem foldl_crcByte_lt {crc : ℕ} (h : crc < 2 ^ 32) (data : Bytes) :
    data.foldl crcByte crc < 2 ^ 32 := by
  rw [foldl_crcByte]
  exact full_poly.foldl_feed_lt (by decide) toNat_lt_of_mem h

theorem crc32c_lt (data : Bytes) : crc32c data < 2 ^ 32 :=
  Nat.xor_lt_two_pow (foldl_crcByte_lt mask_lt data) mask_lt

/-- **The table computes the definition.** The checksum of every message is the one defined bit by
bit, and it fits in 32 bits. -/
theorem crc32c_eq_crcBitwise (data : Bytes) :
    crc32c data = crcBitwise data ∧ crc32c data < 2 ^ 32 := by
  refine ⟨?_, crc32c_lt data⟩
  rw [crc32c, crcBitwise, List.foldl_flatMap]
  refine congrArg (· ^^^ mask) (List.foldl_ext _ _ _ fun crc byte _ => ?_)
  rw [foldl_bits, crcByte_eq_feed]

theorem verify_eq_ok_true_iff {data : Bytes} {stored : ℤ} :
    verify data stored = .ok true ↔ stored = crc32c data := by
  rw [verify]
  split
  · next hrange =>
    refine iff_of_false (fun h => by cases h) fun heq => hrange ?_
    rw [heq]
    exact ⟨Int.natCast_nonneg _, Int.ofNat_le.mpr (Nat.le_of_lt_succ (crc32c_lt data))⟩
  · rw [Except.ok.injEq, decide_eq_true_iff, eq_comm]

/-- A batch is taken exactly if the checksum stored with it is its own. -/
theorem exists_checkBatch_eq_ok_iff {data : Bytes} {stored : ℤ} :
    (∃ note, checkBatch data stored = .ok note) ↔ stored = crc32c data := by
  rw [← verify_eq_ok_true_iff, checkBatch]
  rcases verify data stored with e | - | -
  · exact iff_of_false (fun ⟨_, h⟩ => by cases h) fun h => by cases h
  · exact iff_of_false (fun ⟨_, h⟩ => by cases h) fun h => by cases h
  · exact iff_of_true ⟨_, rfl⟩ rfl

/-- The test vector of the CRC-32C standard, the nine digits. -/
example : crc32c [0x31, 0x32, 0x33, 0x34, 0x35, 0x36, 0x37, 0x38, 0x39] = 0xE3069283 := by
  decide +kernel

/-! ## Damage in a short window -/

/-- Two registers that differ are told apart by no message. -/
theorem foldl_crcByte_inj {crc crc' : ℕ} {data : Bytes} (h : crc < 2 ^ 32) (h' : crc' < 2 ^ 32)
    (heq : data.foldl crcByte crc = data.foldl crcByte crc') : crc = crc' := by
  rw [foldl_crcByte, foldl_crcByte] at heq
  exact full_poly.foldl_feed_inj_register (by decide) toNat_lt_of_mem h h' heq

/-- One register, fed two messages of one length of at most four bytes, tells them apart. -/
theorem foldl_crcByte_inj_data {crc : ℕ} {data data' : Bytes} (h : crc < 2 ^ 32)
    (hshort : data.length ≤ 4) (hlen : data.length = data'.length)
    (heq : data.foldl crcByte crc = data'.foldl crcByte crc) : data = data' := by
  rw [foldl_crcByte, foldl_crcByte] at heq
  have hwords := full_poly.foldl_feed_inj_words (by decide)
    (by rw [List.length_map]; omega) (by rw [List.length_map, List.length_map, hlen])
    toNat_lt_of_mem toNat_lt_of_mem h heq
  exact List.map_injective_iff.mpr (fun a b => UInt8.toNat_inj.mp) hwords

/-- Messages that differ only in a window of four bytes, and do differ, have different checksums. -/
theorem crc32c_ne_of_window {start window window' rest : Bytes} (hshort : window.length ≤ 4)
    (hlen : window.length = window'.length) (hne : window ≠ window') :
    crc32c (start ++ window ++ rest) ≠ crc32c (start ++ window' ++ rest) := by
  intro heq
  have hstart := foldl_crcByte_lt mask_lt start
  have hregister : (start ++ window ++ rest).foldl crcByte mask =
      (start ++ window' ++ rest).foldl crcByte mask := by
    rw [← Nat.xor_xor_cancel_right (List.foldl crcByte mask (start ++ window ++ rest)) mask]
    exact (congrArg (· ^^^ mask) heq).trans (Nat.xor_xor_cancel_right _ mask)
  simp only [List.foldl_append] at hregister
  have hwindow := foldl_crcByte_inj (foldl_crcByte_lt hstart window)
    (foldl_crcByte_lt hstart window') hregister
  exact hne (foldl_crcByte_inj_data hstart hshort hlen hwindow)

/-- **Bursts are detected.** If two different messages of one length agree outside some window of
four consecutive bytes, the checksum of the one does not verify the other. -/
theorem verify_eq_false_of_burst (a b : Bytes) (i : ℕ) (hlen : a.length = b.length)
    (hwindow : ∀ j, j < i ∨ i + 4 ≤ j → a[j]? = b[j]?) (hne : a ≠ b) :
    verify b (crc32c a) = .ok false := by
  have hsplit (data : Bytes) :
      data.take i ++ (data.drop i).take 4 ++ data.drop (i + 4) = data := by
    rw [List.append_assoc, ← List.drop_drop, List.take_append_drop, List.take_append_drop]
  have hstart : a.take i = b.take i := by
    refine List.ext_getElem? fun j => ?_
    rw [List.getElem?_take, List.getElem?_take]
    split
    · next hj => exact hwindow j (.inl hj)
    · rfl
  have hrest : a.drop (i + 4) = b.drop (i + 4) := by
    refine List.ext_getElem? fun j => ?_
    rw [List.getElem?_drop, List.getElem?_drop]
    exact hwindow _ (.inr (Nat.le_add_right _ _))
  have hdiffer : (a.drop i).take 4 ≠ (b.drop i).take 4 := by
    intro heq
    exact hne (by rw [← hsplit a, ← hsplit b, hstart, heq, hrest])
  have hcrc : crc32c a ≠ crc32c b := by
    rw [← hsplit a, ← hsplit b, hstart, hrest]
    exact crc32c_ne_of_window (List.length_take_le 4 _)
      (by rw [List.length_take, List.length_take, List.length_drop, List.length_drop, hlen]) hdiffer
  have hrange : (0 : ℤ) ≤ crc32c a ∧ (crc32c a : ℤ) ≤ mask :=
    ⟨Int.natCast_nonneg _, Int.ofNat_le.mpr (Nat.le_of_lt_succ (crc32c_lt a))⟩
  rw [verify, if_neg (not_not.mpr hrange), decide_eq_false]
  exact fun heq => hcrc (Int.ofNat.inj heq).symm

/-- Two messages that differ in a byte. -/
theorem verify_eq_false_of_burst_one_byte :
    verify [0x6C, 0x6F, 0x67] (crc32c [0x6C, 0x65, 0x67]) = .ok false := by
  refine verify_eq_false_of_burst [0x6C, 0x65, 0x67] [0x6C, 0x6F, 0x67] 0 rfl (fun j hj => ?_)
    (by decide)
  have hj : 4 ≤ j := hj.resolve_left (Nat.not_lt_zero j)
  have hshort : 3 ≤ j := Nat.le_of_succ_le hj
  rw [List.getElem?_eq_none hshort, List.getElem?_eq_none hshort]

end Crc32c

end Relay
