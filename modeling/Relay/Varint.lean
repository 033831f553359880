import Mathlib.Data.Int.Bitwise
import Mathlib.Tactic.Ring
import Relay.Records

/-!
# Varints

A number is written seven bits to a byte, the lowest first, and every byte but the last has its high
bit set. Signed numbers are mapped to unsigned ones first, so that small ones of either sign are
short.

The reader takes the bits of each byte to their place and stops at the first byte whose high bit is
clear. So it stops where the writer did, whatever bytes follow (`decodeLoop_encodeLoop`), and a
sequence of numbers can be read back without any marks between them.

## Numbers of more than 64 bits

The writer takes any number, and the reader ten bytes, which hold 70 bits. The sign of a negative
number is spread by a shift of 63 places, which leaves more than the sign of a number below 64 bits.
What is left is mixed into the number (`zigzagEncode_negSucc`), and the reader has no way to tell.

## Main definitions

* `zigzagEncode`, `zigzagDecode`: signed to unsigned and back
* `encodeVarint`, `decodeVarint`
* `decodeVarints`: one number after another
* `WideNegative`: the bytes of a negative number of more than 64 bits

## Main results

* `decodeVarints_encodeVarint`: numbers of 64 bits are read back, and are not written longer than
  larger ones
* `decodeVarint_encodeVarint_faithful_iff`: which numbers change on the way
-/

namespace Relay

/-- `_CONTINUE`. -/
def continueBit : ℕ := 0x80

/-- `_MASK`. -/
def groupMask : ℕ := 0x7F

/-- `_MAX_BYTES`. -/
def maxVarintBytes : ℕ := 10

/-- `zigzag_encode`. -/
def zigzagEncode (value : ℤ) : ℤ :=
  if value < 0 then Int.xor (value <<< (1 : ℕ)) (value >>> (63 : ℕ)) else value <<< (1 : ℕ)

/-- `zigzag_decode`. -/
def zigzagDecode (value : ℤ) : ℤ := Int.xor (value >>> (1 : ℕ)) (-(Int.land value 1))

/-- The loop of `encode_varint`. -/
def encodeLoop (n : ℕ) : Bytes :=
  let byte := n &&& groupMask
  if n >>> 7 ≠ 0 then UInt8.ofNat (byte ||| continueBit) :: encodeLoop (n >>> 7)
  else [UInt8.ofNat byte]
termination_by n
decreasing_by
  rw [Nat.shiftRight_eq_div_pow] at *
  omega

/-- `encode_varint`. The number is not negative any more (`zigzagEncode_nonneg`). -/
def encodeVarint (value : ℤ) : Bytes := encodeLoop (zigzagEncode value).toNat

/-- The loop of `decode_varint` at byte `i`. -/
def decodeLoop (i result shift : ℕ) : Bytes → Except RelayError (ℤ × ℕ)
  | [] => .error (.invalid ("varint ran off the end of the buffer with the "
      ++ "continuation bit still set; the input is truncated"))
  | byte :: data =>
    if i ≥ maxVarintBytes then
      .error (.invalid ("varint did not terminate within its width; a "
        ++ "length prefix that never stops is corruption or a "
        ++ "hostile input trying to make the reader loop"))
    else
      let result := result ||| (byte.toNat &&& groupMask) <<< shift
      if byte.toNat &&& continueBit = 0 then .ok (zigzagDecode result, i + 1)
      else decodeLoop (i + 1) result (shift + 7) data

/-- `decode_varint`: the number, and how many bytes it took. -/
def decodeVarint (data : Bytes) : Except RelayError (ℤ × ℕ) := decodeLoop 0 0 0 data

/-- Read a given number of numbers one after another: each with the bytes it took, and what
follows. -/
def decodeVarints : ℕ → Bytes → Except RelayError (List (ℤ × ℕ) × Bytes)
  | 0, data => .ok ([], data)
  | count + 1, data => do
    let (value, consumed) ← decodeVarint data
    let (values, rest) ← decodeVarints count (data.drop consumed)
    return ((value, consumed) :: values, rest)

/-! ## Zigzag -/

theorem intXor_neg_one (k : ℤ) : Int.xor k (-1) = -k - 1 := by
  cases k with
  | ofNat n =>
    show Int.negSucc (n ^^^ 0) = -(n : ℤ) - 1
    rw [Nat.xor_zero]
    omega
  | negSucc n =>
    show ((n ^^^ 0 : ℕ) : ℤ) = -Int.negSucc n - 1
    rw [Nat.xor_zero]
    omega

theorem intXor_zero (k : ℤ) : Int.xor k 0 = k := by
  cases k with
  | ofNat n => exact congrArg Int.ofNat (Nat.xor_zero n)
  | negSucc n => exact congrArg Int.negSucc (Nat.xor_zero n)

theorem intXor_nonneg_of_neg {k l : ℤ} (hk : k < 0) (hl : l < 0) : 0 ≤ Int.xor k l := by
  obtain ⟨m, rfl⟩ := Int.eq_negSucc_of_lt_zero hk
  obtain ⟨n, rfl⟩ := Int.eq_negSucc_of_lt_zero hl
  exact Int.natCast_nonneg _

theorem zigzagEncode_of_nonneg {value : ℤ} (h : 0 ≤ value) : zigzagEncode value = 2 * value := by
  rw [zigzagEncode, if_neg (not_lt.mpr h), Int.shiftLeft_eq]
  ring

/-- In 64 bits a negative number shifted by 63 places is minus one. -/
theorem zigzagEncode_of_neg {value : ℤ} (h : value < 0) (hmin : -2 ^ 63 ≤ value) :
    zigzagEncode value = -(2 * value) - 1 := by
  have hshift : value >>> (63 : ℕ) = -1 := by
    rw [Int.shiftRight_eq_div_pow]
    omega
  rw [zigzagEncode, if_pos h, hshift, intXor_neg_one, Int.shiftLeft_eq]
  ring

/-- No number is mapped to a negative one, of 64 bits or not. -/
theorem zigzagEncode_nonneg (value : ℤ) : 0 ≤ zigzagEncode value := by
  by_cases h : value < 0
  · rw [zigzagEncode, if_pos h, Int.shiftLeft_eq, Int.shiftRight_eq_div_pow]
    exact intXor_nonneg_of_neg (by omega) (by omega)
  · rw [zigzagEncode_of_nonneg (not_lt.mp h)]
    omega

/-- The lowest bit is the sign. -/
theorem zigzagDecode_natCast (n : ℕ) :
    zigzagDecode n = if n % 2 = 0 then ((n / 2 : ℕ) : ℤ) else -((n / 2 : ℕ) : ℤ) - 1 := by
  have hland : Int.land n 1 = ((n % 2 : ℕ) : ℤ) := by
    show ((n &&& 1 : ℕ) : ℤ) = _
    rw [Nat.and_one_is_mod]
  have hshift : (n : ℤ) >>> (1 : ℕ) = ((n / 2 : ℕ) : ℤ) := by
    rw [Int.shiftRight_eq_div_pow]
    rfl
  rw [zigzagDecode, hland, hshift]
  rcases Nat.mod_two_eq_zero_or_one n with heven | hodd
  · rw [heven, if_pos rfl]
    exact intXor_zero _
  · rw [hodd, if_neg one_ne_zero]
    exact intXor_neg_one _

/-- Numbers of 64 bits survive the mapping and its inverse. -/
theorem zigzagDecode_zigzagEncode {value : ℤ} (hmin : -2 ^ 63 ≤ value) :
    zigzagDecode ((zigzagEncode value).toNat : ℤ) = value := by
  rw [zigzagDecode_natCast]
  rcases lt_or_ge value 0 with hneg | hnonneg
  · rw [zigzagEncode_of_neg hneg hmin, if_neg (by omega)]
    omega
  · rw [zigzagEncode_of_nonneg hnonneg, if_pos (by omega)]
    omega

/-! ## Groups of seven bits -/

theorem and_groupMask (n : ℕ) : n &&& groupMask = n % 128 := Nat.and_two_pow_sub_one_eq_mod n 7

theorem and_continueBit_eq_zero_iff {n : ℕ} (h : n < 256) : n &&& continueBit = 0 ↔ n < 128 := by
  have hbit : n &&& continueBit = (n.testBit 7).toNat * 2 ^ 7 := Nat.and_two_pow n 7
  rw [hbit, Nat.testBit_eq_decide_div_mod_eq]
  by_cases hn : n < 128
  · simp [hn, Nat.div_eq_of_lt hn]
  · have hdiv : n / 128 % 2 = 1 := by omega
    simp [hn, hdiv]

/-- One byte of the writer's loop, in numbers. -/
theorem encodeLoop_eq (n : ℕ) : encodeLoop n =
    if n < 128 then [UInt8.ofNat n] else UInt8.ofNat (n % 128 + 128) :: encodeLoop (n / 128) := by
  have hgroup : n % 128 < 2 ^ 7 := Nat.mod_lt n (by norm_num)
  have hor : n % 128 ||| continueBit = n % 128 + 128 := by
    rw [Nat.or_comm, Nat.add_comm]
    exact (Nat.shiftLeft_add_eq_or_of_lt hgroup 1).symm
  rw [encodeLoop]
  simp only [and_groupMask, Nat.shiftRight_eq_div_pow, hor]
  by_cases hn : n < 128
  · rw [if_pos hn, if_neg (not_not.mpr (Nat.div_eq_of_lt hn)), Nat.mod_eq_of_lt hn]
  · rw [if_neg hn, if_pos (by omega)]

/-- The bits of a byte go to their place above the bits read so far. -/
theorem or_shiftLeft {result shift : ℕ} (h : result < 2 ^ shift) (group : ℕ) :
    result ||| group <<< shift = result + group * 2 ^ shift := by
  rw [Nat.or_comm, ← Nat.shiftLeft_add_eq_or_of_lt h, Nat.shiftLeft_eq, Nat.add_comm]

/-- The reader's loop on a last byte. -/
theorem decodeLoop_last {i result shift byte : ℕ} (hi : i < maxVarintBytes) (hbyte : byte < 128)
    (hresult : result < 2 ^ shift) (data : Bytes) :
    decodeLoop i result shift (UInt8.ofNat byte :: data) =
      .ok (zigzagDecode ((result + byte * 2 ^ shift : ℕ) : ℤ), i + 1) := by
  have hnat : (UInt8.ofNat byte).toNat = byte := UInt8.toNat_ofNat_of_lt' (by
    show byte < 256
    omega)
  simp only [decodeLoop, hnat]
  rw [if_neg (not_le.mpr hi), if_pos ((and_continueBit_eq_zero_iff (by omega)).mpr hbyte),
    and_groupMask, Nat.mod_eq_of_lt hbyte, or_shiftLeft hresult]

/-- The reader's loop on a byte that is continued. -/
theorem decodeLoop_continued {i result shift group : ℕ} (hi : i < maxVarintBytes)
    (hgroup : group < 128) (hresult : result < 2 ^ shift) (data : Bytes) :
    decodeLoop i result shift (UInt8.ofNat (group + 128) :: data) =
      decodeLoop (i + 1) (result + group * 2 ^ shift) (shift + 7) data := by
  have hnat : (UInt8.ofNat (group + 128)).toNat = group + 128 :=
    UInt8.toNat_ofNat_of_lt' (by
      show group + 128 < 256
      omega)
  have hmask : (group + 128) % 128 = group := by omega
  have hcontinue : (group + 128) &&& continueBit ≠ 0 := by
    rw [ne_eq, and_continueBit_eq_zero_iff (by omega)]
    omega
  rw [decodeLoop]
  simp only [hnat]
  rw [if_neg (not_le.mpr hi), if_neg hcontinue, and_groupMask, hmask, or_shiftLeft hresult]

/-- Seven more bits. -/
theorem add_group_lt {result shift group : ℕ} (hresult : result < 2 ^ shift)
    (hgroup : group < 128) : result + group * 2 ^ shift < 2 ^ (shift + 7) :=
  calc result + group * 2 ^ shift < 2 ^ shift + group * 2 ^ shift :=
        Nat.add_lt_add_right hresult _
    _ = (group + 1) * 2 ^ shift := by ring
    _ ≤ 128 * 2 ^ shift := Nat.mul_le_mul_right _ hgroup
    _ = 2 ^ (shift + 7) := by ring

/-- **The reader stops where the writer did**, with the number above what it had read before. -/
theorem decodeLoop_encodeLoop {i result shift n : ℕ} (hresult : result < 2 ^ shift)
    (hlength : i + (encodeLoop n).length ≤ maxVarintBytes) (rest : Bytes) :
    decodeLoop i result shift (encodeLoop n ++ rest) =
      .ok (zigzagDecode ((result + n * 2 ^ shift : ℕ) : ℤ), i + (encodeLoop n).length) := by
  induction n using Nat.strong_induction_on generalizing i result shift with
  | _ n ih =>
    rw [encodeLoop_eq] at hlength ⊢
    by_cases hn : n < 128
    · rw [if_pos hn] at hlength ⊢
      exact decodeLoop_last hlength hn hresult rest
    · rw [if_neg hn] at hlength ⊢
      rw [List.length_cons] at hlength
      have hgroup : n % 128 < 128 := Nat.mod_lt n (by norm_num)
      have hsum : result + n % 128 * 2 ^ shift + n / 128 * 2 ^ (shift + 7) =
          result + n * 2 ^ shift :=
        calc result + n % 128 * 2 ^ shift + n / 128 * 2 ^ (shift + 7)
            = result + (n % 128 + 128 * (n / 128)) * 2 ^ shift := by ring
          _ = result + n * 2 ^ shift := by rw [Nat.mod_add_div]
      rw [List.cons_append, decodeLoop_continued (by omega) hgroup hresult,
        ih (n / 128) (by omega) (add_group_lt hresult hgroup) (by omega), hsum, List.length_cons,
        Nat.add_right_comm, Nat.add_assoc]

/-! ## Lengths -/

/-- `k + 1` bytes are enough for a number of `7 * (k + 1)` bits. -/
theorem length_encodeLoop_le {k n : ℕ} (h : n < 128 ^ (k + 1)) :
    (encodeLoop n).length ≤ k + 1 := by
  induction k generalizing n with
  | zero =>
    rw [zero_add, pow_one] at h
    rw [encodeLoop_eq, if_pos h]
    exact le_refl 1
  | succ k ih =>
    rw [encodeLoop_eq]
    by_cases hn : n < 128
    · rw [if_pos hn]
      exact Nat.succ_pos _
    · rw [if_neg hn, List.length_cons]
      rw [pow_succ] at h
      exact Nat.succ_le_succ (ih (Nat.div_lt_of_lt_mul (by rwa [Nat.mul_comm] at h)))

/-- A larger number is not written shorter. -/
theorem length_encodeLoop_mono {n m : ℕ} (h : n ≤ m) :
    (encodeLoop n).length ≤ (encodeLoop m).length := by
  induction n using Nat.strong_induction_on generalizing m with
  | _ n ih =>
    rw [encodeLoop_eq n, encodeLoop_eq m]
    by_cases hm : m < 128
    · rw [if_pos hm, if_pos (lt_of_le_of_lt h hm)]
      exact le_refl 1
    · rw [if_neg hm, List.length_cons]
      by_cases hn : n < 128
      · rw [if_pos hn]
        exact Nat.succ_le_succ (Nat.zero_le _)
      · rw [if_neg hn, List.length_cons]
        exact Nat.succ_le_succ (ih (n / 128) (by omega) (Nat.div_le_div_right h))

/-- Ten bytes have room for 64 bits. -/
theorem length_encodeVarint_le {value : ℤ} (hmin : -2 ^ 63 ≤ value) (hmax : value < 2 ^ 63) :
    (encodeVarint value).length ≤ maxVarintBytes := by
  have hwidth : (zigzagEncode value).toNat < 2 ^ 64 := by
    rcases lt_or_ge value 0 with hneg | hnonneg
    · rw [zigzagEncode_of_neg hneg hmin]
      omega
    · rw [zigzagEncode_of_nonneg hnonneg]
      omega
  have hgroups : (2 : ℕ) ^ 64 ≤ 128 ^ (9 + 1) := by decide
  exact length_encodeLoop_le (lt_of_lt_of_le hwidth hgroups)

/-- One number is read back, whatever follows it. -/
theorem decodeVarint_encodeVarint {value : ℤ} (hmin : -2 ^ 63 ≤ value) (hmax : value < 2 ^ 63)
    (rest : Bytes) :
    decodeVarint (encodeVarint value ++ rest) = .ok (value, (encodeVarint value).length) := by
  have hlength : 0 + (encodeVarint value).length ≤ maxVarintBytes := by
    rw [zero_add]
    exact length_encodeVarint_le hmin hmax
  rw [decodeVarint, encodeVarint, decodeLoop_encodeLoop Nat.one_pos hlength, pow_zero, mul_one,
    zero_add, zero_add, zigzagDecode_zigzagEncode hmin]

/-- Numbers are read back one after another, and what follows them is left. -/
theorem decodeVarints_flatten {values : List ℤ} (hvalues : ∀ v ∈ values, -2 ^ 63 ≤ v ∧ v < 2 ^ 63)
    (trailing : Bytes) :
    decodeVarints values.length ((values.map encodeVarint).flatten ++ trailing) =
      .ok (values.map fun v => (v, (encodeVarint v).length), trailing) := by
  induction values with
  | nil => rfl
  | cons value values ih =>
    obtain ⟨hmin, hmax⟩ := hvalues value List.mem_cons_self
    rw [List.map_cons, List.flatten_cons, List.append_assoc, List.length_cons, decodeVarints,
      decodeVarint_encodeVarint hmin hmax]
    show (decodeVarints values.length
      ((encodeVarint value ++ ((values.map encodeVarint).flatten ++ trailing)).drop
        (encodeVarint value).length) >>= fun result =>
          Except.ok ((value, (encodeVarint value).length) :: result.1, result.2)) = _
    rw [List.drop_left, ih fun v hv => hvalues v (List.mem_cons_of_mem _ hv)]
    rfl

/-- **Varints are self-delimiting.** Numbers of 64 bits written one after another are read back from
any stream that starts with them, each from exactly the bytes it was written in. None takes more
than ten bytes, or more than a number that is mapped at least as high. -/
theorem decodeVarints_encodeVarint (values : List ℤ)
    (hvalues : ∀ v ∈ values, -2 ^ 63 ≤ v ∧ v < 2 ^ 63) (trailing : Bytes) :
    decodeVarints values.length ((values.map encodeVarint).flatten ++ trailing) =
        .ok (values.map fun v => (v, (encodeVarint v).length), trailing) ∧
      ∀ v ∈ values, (encodeVarint v).length ≤ 10 ∧
        ∀ w, zigzagEncode v ≤ zigzagEncode w →
          (encodeVarint v).length ≤ (encodeVarint w).length := by
  refine ⟨decodeVarints_flatten hvalues trailing, fun v hv => ⟨?_, fun w hw => ?_⟩⟩
  · obtain ⟨hmin, hmax⟩ := hvalues v hv
    exact length_encodeVarint_le hmin hmax
  · exact length_encodeLoop_mono (Int.toNat_le_toNat hw)

/-- The smallest number of 64 bits, minus one and 300, followed by a byte that asks for more. -/
theorem decodeVarints_encodeVarint_three :
    (∀ v ∈ [(-2 ^ 63 : ℤ), -1, 300], -2 ^ 63 ≤ v ∧ v < 2 ^ 63) ∧
      decodeVarints 3 (([(-2 ^ 63 : ℤ), -1, 300].map encodeVarint).flatten ++ [0xFF]) =
        .ok ([(-2 ^ 63 : ℤ), -1, 300].map fun v => (v, (encodeVarint v).length), [0xFF]) := by
  have hvalues : ∀ v ∈ [(-2 ^ 63 : ℤ), -1, 300], -2 ^ 63 ≤ v ∧ v < 2 ^ 63 := by simp
  exact ⟨hvalues, (decodeVarints_encodeVarint _ hvalues [0xFF]).1⟩

/-! ## Beyond 64 bits -/

/-- `k` bytes are not enough for a number of more than `7 * k` bits. -/
theorem lt_length_encodeLoop {k n : ℕ} (h : 128 ^ k ≤ n) : k < (encodeLoop n).length := by
  induction k generalizing n with
  | zero =>
    rw [encodeLoop_eq]
    split
    · exact Nat.one_pos
    · exact Nat.succ_pos _
  | succ k ih =>
    rw [pow_succ] at h
    have hpos : 0 < 128 ^ k := Nat.pow_pos (by omega)
    rw [encodeLoop_eq, if_neg (by omega), List.length_cons]
    exact Nat.succ_lt_succ (ih ((Nat.le_div_iff_mul_le (by omega)).mpr h))

theorem length_encodeLoop_le_maxVarintBytes_iff {n : ℕ} :
    (encodeLoop n).length ≤ maxVarintBytes ↔ n < 2 ^ 70 := by
  have hgroups : (128 : ℕ) ^ (9 + 1) = 2 ^ 70 := by rw [show (128 : ℕ) = 2 ^ 7 from rfl, ← pow_mul]
  rw [← hgroups]
  refine ⟨fun h => ?_, length_encodeLoop_le⟩
  by_contra hn
  exact absurd (lt_length_encodeLoop (not_lt.mp hn)) (not_lt.mpr h)

/-- A number that was written too long is refused. -/
theorem decodeLoop_encodeLoop_of_lt {i result shift n : ℕ} (hresult : result < 2 ^ shift)
    (hlength : maxVarintBytes < i + (encodeLoop n).length) (rest : Bytes) :
    ∃ message, decodeLoop i result shift (encodeLoop n ++ rest) = .error (.invalid message) := by
  induction n using Nat.strong_induction_on generalizing i result shift with
  | _ n ih =>
    by_cases hi : i < maxVarintBytes
    · rw [encodeLoop_eq] at hlength ⊢
      by_cases hn : n < 128
      · rw [if_pos hn, List.length_singleton] at hlength
        omega
      · rw [if_neg hn] at hlength ⊢
        rw [List.length_cons] at hlength
        have hgroup : n % 128 < 128 := Nat.mod_lt n (by norm_num)
        rw [List.cons_append, decodeLoop_continued hi hgroup hresult]
        exact ih (n / 128) (by omega) (add_group_lt hresult hgroup) (by omega)
    · obtain ⟨byte, data, hdata⟩ : ∃ byte data, encodeLoop n = byte :: data := by
        rw [encodeLoop_eq]
        split
        · exact ⟨_, _, rfl⟩
        · exact ⟨_, _, rfl⟩
      rw [hdata, List.cons_append, decodeLoop, if_pos (not_lt.mp hi)]
      exact ⟨_, rfl⟩

/-- What the reader makes of any number that the writer took: the 70 bits that ten bytes hold, or a
refusal. -/
theorem decodeVarint_encodeVarint_cases (value : ℤ) :
    ((zigzagEncode value).toNat < 2 ^ 70 ∧ decodeVarint (encodeVarint value) =
        .ok (zigzagDecode ((zigzagEncode value).toNat : ℤ), (encodeVarint value).length)) ∨
      (2 ^ 70 ≤ (zigzagEncode value).toNat ∧
        ∃ message, decodeVarint (encodeVarint value) = .error (.invalid message)) := by
  have hstart : 0 < 2 ^ 0 := Nat.one_pos
  rcases lt_or_ge (zigzagEncode value).toNat (2 ^ 70) with hlt | hge
  · refine Or.inl ⟨hlt, ?_⟩
    have hlength : 0 + (encodeVarint value).length ≤ maxVarintBytes := by
      rw [zero_add]
      exact length_encodeLoop_le_maxVarintBytes_iff.mpr hlt
    have h := decodeLoop_encodeLoop hstart hlength []
    rw [List.append_nil, pow_zero, mul_one, zero_add, zero_add] at h
    exact h
  · refine Or.inr ⟨hge, ?_⟩
    have hlength : maxVarintBytes < 0 + (encodeVarint value).length := by
      rw [zero_add]
      exact not_le.mp fun h =>
        absurd (length_encodeLoop_le_maxVarintBytes_iff.mp h) (not_lt.mpr hge)
    have h := decodeLoop_encodeLoop_of_lt hstart hlength []
    rw [List.append_nil] at h
    exact h

/-- Below 64 bits the shift by 63 places is not minus one any more, and its other bits go into the
result. -/
theorem zigzagEncode_negSucc (m : ℕ) :
    zigzagEncode (Int.negSucc m) = ((2 * m + 1) ^^^ (m / 2 ^ 63) : ℕ) := by
  have hdouble : Int.negSucc m <<< (1 : ℕ) = Int.negSucc (2 * m + 1) := by
    rw [Int.shiftLeft_eq]
    omega
  have hshift : Int.negSucc m >>> (63 : ℕ) = Int.negSucc (m / 2 ^ 63) := by
    rw [Int.shiftRight_eq_div_pow]
    omega
  rw [zigzagEncode, if_pos (Int.negSucc_lt_zero m), hdouble, hshift]
  rfl

theorem zigzagDecode_natCast_eq_negSucc_iff {n m : ℕ} :
    zigzagDecode n = Int.negSucc m ↔ n = 2 * m + 1 := by
  rw [zigzagDecode_natCast]
  split <;> omega

/-- The bits that are mixed in stay below the highest one. -/
theorem two_pow_le_xor_iff {m : ℕ} : 2 ^ 70 ≤ (2 * m + 1) ^^^ (m / 2 ^ 63) ↔ 2 ^ 69 ≤ m := by
  constructor
  · intro h
    by_contra hm
    have hdouble : 2 * m + 1 < 2 ^ 70 := by omega
    have hmixed : m / 2 ^ 63 < 2 ^ 70 := by omega
    exact absurd (Nat.xor_lt_two_pow hdouble hmixed) (not_lt.mpr h)
  · intro h
    by_contra hlt
    have hne : 2 * m + 1 ≠ 0 := by omega
    have hlog : 70 ≤ (2 * m + 1).log2 := (Nat.le_log2 hne).mpr (by omega)
    have hself : 2 ^ (2 * m + 1).log2 ≤ 2 * m + 1 := Nat.log2_self_le hne
    have hnext : 2 * m + 1 < 2 ^ ((2 * m + 1).log2 + 1) := Nat.lt_log2_self
    rw [pow_succ] at hnext
    have hmixed : m / 2 ^ 63 < 2 ^ (2 * m + 1).log2 := by omega
    have hbelow : (2 * m + 1) ^^^ (m / 2 ^ 63) < 2 ^ (2 * m + 1).log2 :=
      lt_of_lt_of_le (not_le.mp hlt) (Nat.pow_le_pow_right (by omega) hlog)
    have hback := Nat.xor_lt_two_pow hbelow hmixed
    rw [Nat.xor_assoc, Nat.xor_self, Nat.xor_zero] at hback
    omega

/-- The numbers that fit in ten bytes. -/
theorem zigzagEncode_toNat_lt_iff {value : ℤ} :
    (zigzagEncode value).toNat < 2 ^ 70 ↔ -2 ^ 69 ≤ value ∧ value < 2 ^ 69 := by
  rcases lt_or_ge value 0 with hneg | hnonneg
  · obtain ⟨m, rfl⟩ := Int.eq_negSucc_of_lt_zero hneg
    rw [zigzagEncode_negSucc, Int.toNat_natCast, ← not_le, two_pow_le_xor_iff]
    omega
  · rw [zigzagEncode_of_nonneg hnonneg]
    omega

/-- The numbers that survive the mapping and its inverse. -/
theorem zigzagDecode_zigzagEncode_iff {value : ℤ} :
    zigzagDecode ((zigzagEncode value).toNat : ℤ) = value ↔ -2 ^ 63 ≤ value := by
  refine ⟨fun h => ?_, zigzagDecode_zigzagEncode⟩
  by_contra hmin
  obtain ⟨m, rfl⟩ := Int.eq_negSucc_of_lt_zero (show value < 0 by omega)
  rw [zigzagEncode_negSucc, Int.toNat_natCast, zigzagDecode_natCast_eq_negSucc_iff] at h
  -- nothing but zero can be mixed in without a change
  have hzero : m / 2 ^ 63 = 0 := by
    have hcancel := congrArg ((2 * m + 1) ^^^ ·) h
    simpa only [← Nat.xor_assoc, Nat.xor_self, Nat.zero_xor] using hcancel
  omega

/-- The numbers that are read back. -/
theorem decodeVarint_encodeVarint_eq_ok_iff {value : ℤ} {length : ℕ} :
    decodeVarint (encodeVarint value) = .ok (value, length) ↔
      (-2 ^ 63 ≤ value ∧ value < 2 ^ 69) ∧ length = (encodeVarint value).length := by
  rcases decodeVarint_encodeVarint_cases value with ⟨hlt, heq⟩ | ⟨hge, message, heq⟩
  · rw [zigzagEncode_toNat_lt_iff] at hlt
    rw [heq, Except.ok.injEq, Prod.mk.injEq, zigzagDecode_zigzagEncode_iff, eq_comm (b := length)]
    exact and_congr_left fun _ => by omega
  · rw [← not_lt, zigzagEncode_toNat_lt_iff] at hge
    rw [heq]
    refine iff_of_false (fun h => by cases h) ?_
    omega

/-- The numbers that are refused. -/
theorem decodeVarint_encodeVarint_eq_error_iff {value : ℤ} :
    (∃ message, decodeVarint (encodeVarint value) = .error (.invalid message)) ↔
      value < -2 ^ 69 ∨ 2 ^ 69 ≤ value := by
  rcases decodeVarint_encodeVarint_cases value with ⟨hlt, heq⟩ | ⟨hge, message, heq⟩
  · rw [zigzagEncode_toNat_lt_iff] at hlt
    rw [heq]
    refine iff_of_false ?_ (by omega)
    rintro ⟨message, h⟩
    cases h
  · rw [← not_lt, zigzagEncode_toNat_lt_iff] at hge
    exact iff_of_true ⟨message, heq⟩ (by omega)

/-- The number in seven bits of each byte, up to the first byte that is not continued. -/
def groupsNumber : Bytes → ℕ
  | [] => 0
  | byte :: data =>
    if byte.toNat < 128 then byte.toNat else byte.toNat - 128 + 128 * groupsNumber data

/-- What the reader's loop accepts is the number in the groups, and it ends within the width. -/
theorem decodeLoop_eq_ok {i result shift : ℕ} {data : Bytes} {value : ℤ} {consumed : ℕ}
    (hresult : result < 2 ^ shift) (h : decodeLoop i result shift data = .ok (value, consumed)) :
    value = zigzagDecode ((result + groupsNumber data * 2 ^ shift : ℕ) : ℤ) ∧
      ∃ continued last rest, data = continued ++ last :: rest ∧
        (∀ byte ∈ continued, 128 ≤ byte.toNat) ∧ last.toNat < 128 ∧
        i + continued.length < maxVarintBytes := by
  induction data generalizing i result shift with
  | nil => cases h
  | cons byte data ih =>
    by_cases hi : i < maxVarintBytes
    · have hbyte := byte.toNat_lt
      by_cases hlast : byte.toNat < 128
      · rw [← UInt8.ofNat_toNat (x := byte), decodeLoop_last hi hlast hresult] at h
        obtain ⟨rfl, -⟩ := Prod.mk.inj (Except.ok.inj h)
        refine ⟨?_, [], byte, data, rfl, fun _ h => absurd h List.not_mem_nil, hlast, hi⟩
        rw [groupsNumber, if_pos hlast]
      · have hgroup : byte.toNat - 128 < 128 := by omega
        have hsplit : byte.toNat - 128 + 128 = byte.toNat := by omega
        rw [← UInt8.ofNat_toNat (x := byte), ← hsplit,
          decodeLoop_continued hi hgroup hresult] at h
        obtain ⟨hvalue, continued, last, rest, rfl, hcontinued, hlast', hlength⟩ :=
          ih (add_group_lt hresult hgroup) h
        refine ⟨?_, byte :: continued, last, rest, rfl, ?_, hlast', ?_⟩
        · rw [hvalue, groupsNumber, if_neg hlast, pow_add]
          ring_nf
        · exact List.forall_mem_cons.mpr ⟨not_lt.mp hlast, hcontinued⟩
        · rw [List.length_cons]
          omega
    · rw [decodeLoop, if_pos (not_lt.mp hi)] at h
      cases h

/-- Bytes that end within the width are accepted. -/
theorem exists_decodeLoop_eq_ok {i result shift : ℕ} {continued : Bytes} {last : UInt8}
    (hresult : result < 2 ^ shift) (hcontinued : ∀ byte ∈ continued, 128 ≤ byte.toNat)
    (hlast : last.toNat < 128) (hlength : i + continued.length < maxVarintBytes) (rest : Bytes) :
    ∃ value consumed,
      decodeLoop i result shift (continued ++ last :: rest) = .ok (value, consumed) := by
  induction continued generalizing i result shift with
  | nil =>
    rw [List.length_nil, add_zero] at hlength
    rw [List.nil_append, ← UInt8.ofNat_toNat (x := last), decodeLoop_last hlength hlast hresult]
    exact ⟨_, _, rfl⟩
  | cons byte continued ih =>
    obtain ⟨hbyte, hcontinued⟩ := List.forall_mem_cons.mp hcontinued
    rw [List.length_cons] at hlength
    have hlt := byte.toNat_lt
    have hgroup : byte.toNat - 128 < 128 := by omega
    have hsplit : byte.toNat - 128 + 128 = byte.toNat := by omega
    rw [List.cons_append, ← UInt8.ofNat_toNat (x := byte), ← hsplit,
      decodeLoop_continued (by omega) hgroup hresult]
    exact ih (add_group_lt hresult hgroup) hcontinued (by omega)

theorem groupsNumber_append {continued : Bytes} (h : ∀ byte ∈ continued, 128 ≤ byte.toNat)
    (rest : Bytes) : ∃ low < 128 ^ continued.length,
      groupsNumber (continued ++ rest) = low + 128 ^ continued.length * groupsNumber rest := by
  induction continued with
  | nil => exact ⟨0, Nat.one_pos, by simp⟩
  | cons byte continued ih =>
    obtain ⟨hbyte, hcontinued⟩ := List.forall_mem_cons.mp h
    obtain ⟨low, hlow, heq⟩ := ih hcontinued
    have hlt := byte.toNat_lt
    refine ⟨byte.toNat - 128 + 128 * low, ?_, ?_⟩
    · rw [List.length_cons, pow_succ]
      omega
    · rw [List.cons_append, groupsNumber, if_neg (not_lt.mpr hbyte), heq, List.length_cons,
        pow_succ]
      ring

theorem groupsNumber_cons_mod_two (byte : UInt8) (data : Bytes) :
    groupsNumber (byte :: data) % 2 = byte.toNat % 2 := by
  rw [groupsNumber]
  split
  · rfl
  · omega

/-- A negative number of more than 64 bits: ten bytes, of which the first is odd and the tenth has
more than its lowest bit. -/
def WideNegative (data : Bytes) : Prop :=
  ∃ first continued tenth rest, data = first :: continued ++ tenth :: rest ∧
    continued.length = 8 ∧ (∀ byte ∈ first :: continued, 128 ≤ byte.toNat) ∧
    2 ≤ tenth.toNat ∧ tenth.toNat < 128 ∧ first.toNat % 2 = 1

/-- The groups of a number that is accepted hold 70 bits, and more than 64 only in a tenth byte. -/
theorem groupsNumber_of_accepted {continued : Bytes} {last : UInt8}
    (hcontinued : ∀ byte ∈ continued, 128 ≤ byte.toNat) (hlast : last.toNat < 128)
    (hlength : continued.length < maxVarintBytes) (rest : Bytes) :
    groupsNumber (continued ++ last :: rest) < 2 ^ 70 ∧
      (2 ^ 64 ≤ groupsNumber (continued ++ last :: rest) ↔
        continued.length = 9 ∧ 2 ≤ last.toNat) := by
  obtain ⟨low, hlow, heq⟩ := groupsNumber_append hcontinued (last :: rest)
  rw [groupsNumber, if_pos hlast] at heq
  rw [heq]
  have hlength : continued.length ≤ 9 := Nat.le_of_lt_succ hlength
  rcases hlength.lt_or_eq with hlt | hnine
  · have hpow : 128 ^ continued.length ≤ 128 ^ 8 := Nat.pow_le_pow_right (by omega) (by omega)
    have hmul : 128 ^ continued.length * last.toNat ≤ 128 ^ 8 * 127 :=
      Nat.mul_le_mul hpow (by omega)
    norm_num at hpow hmul ⊢
    omega
  · rw [hnine] at hlow ⊢
    norm_num at hlow ⊢
    omega

/-- Of the bytes that the reader accepts, those of a negative number of more than 64 bits are the
ones read below 64 bits. -/
theorem value_of_decodeVarint {data : Bytes} {value : ℤ} {consumed : ℕ}
    (h : decodeVarint data = .ok (value, consumed)) :
    value < 2 ^ 69 ∧ (value < -2 ^ 63 ↔ WideNegative data) := by
  have hstart : 0 < 2 ^ 0 := Nat.one_pos
  obtain ⟨hvalue, continued, last, rest, rfl, hcontinued, hlast, hlength⟩ :=
    decodeLoop_eq_ok hstart h
  rw [zero_add] at hlength
  rw [zero_add, pow_zero, mul_one, zigzagDecode_natCast] at hvalue
  obtain ⟨hwidth, hlarge⟩ := groupsNumber_of_accepted hcontinued hlast hlength rest
  have hbelow : value < -2 ^ 63 ↔ groupsNumber (continued ++ last :: rest) % 2 = 1 ∧
      2 ^ 64 ≤ groupsNumber (continued ++ last :: rest) := by
    rw [hvalue]
    split <;> omega
  refine ⟨?_, ?_⟩
  · rw [hvalue]
    split <;> omega
  · rw [hbelow]
    constructor
    · rintro ⟨hodd, hge⟩
      obtain ⟨hnine, htenth⟩ := hlarge.mp hge
      obtain ⟨first, continued, rfl⟩ := List.exists_cons_of_length_eq_add_one hnine
      rw [List.cons_append, groupsNumber_cons_mod_two] at hodd
      exact ⟨first, continued, last, rest, rfl, Nat.succ.inj hnine, hcontinued, htenth, hlast, hodd⟩
    · rintro ⟨first, continued', tenth, rest', hdata, height, hcontinued', htenth, htenth', hodd⟩
      have hnine : (first :: continued').length = 9 := congrArg Nat.succ height
      have hlarge' := (groupsNumber_of_accepted hcontinued' htenth'
        (lt_of_eq_of_lt hnine (Nat.lt_succ_self 9)) rest').2
      rw [hdata]
      refine ⟨?_, hlarge'.mpr ⟨hnine, htenth⟩⟩
      rw [List.cons_append, groupsNumber_cons_mod_two]
      exact hodd

/-- The bytes of a negative number of more than 64 bits are accepted. -/
theorem exists_decodeVarint_of_wideNegative {data : Bytes} (h : WideNegative data) :
    ∃ value consumed, decodeVarint data = .ok (value, consumed) := by
  obtain ⟨first, continued, tenth, rest, rfl, height, hcontinued, -, htenth, -⟩ := h
  have hnine : (first :: continued).length = 9 := congrArg Nat.succ height
  refine exists_decodeLoop_eq_ok Nat.one_pos hcontinued htenth ?_ rest
  rw [hnine]
  exact Nat.lt_succ_self 9

/-- **Numbers that change on the way.** A number that is written is read back or refused exactly if
it is not below 64 bits, or so far below that it takes more than ten bytes. Of the bytes that are
accepted, those of a negative number of more than 64 bits are the ones whose number is not read back
when it is written again. -/
theorem decodeVarint_encodeVarint_faithful_iff (value : ℤ) (data : Bytes) :
    (((∃ message, decodeVarint (encodeVarint value) = .error (.invalid message)) ∨
        decodeVarint (encodeVarint value) = .ok (value, (encodeVarint value).length)) ↔
      -2 ^ 63 ≤ value ∨ value < -2 ^ 69) ∧
    ((∀ value consumed, decodeVarint data = .ok (value, consumed) →
        ∃ length, decodeVarint (encodeVarint value) = .ok (value, length)) ↔
      ¬ WideNegative data) := by
  refine ⟨?_, fun h hwide => ?_, fun hwide value consumed h => ?_⟩
  · rw [decodeVarint_encodeVarint_eq_error_iff, decodeVarint_encodeVarint_eq_ok_iff]
    omega
  · obtain ⟨value, consumed, hvalue⟩ := exists_decodeVarint_of_wideNegative hwide
    obtain ⟨length, hback⟩ := h value consumed hvalue
    have hbelow := (value_of_decodeVarint hvalue).2.mpr hwide
    have hmin := (decodeVarint_encodeVarint_eq_ok_iff.mp hback).1.1
    omega
  · obtain ⟨hmax, hbelow⟩ := value_of_decodeVarint h
    have hmin : -2 ^ 63 ≤ value := not_lt.mp fun hlt => hwide (hbelow.mp hlt)
    exact ⟨_, decodeVarint_encodeVarint_eq_ok_iff.mpr ⟨⟨hmin, hmax⟩, rfl⟩⟩

/-- The first number below 64 bits. It is read as the first one above them. -/
theorem decodeVarint_encodeVarint_changed :
    decodeVarint (encodeVarint (-2 ^ 63 - 1)) = .ok (2 ^ 63, (encodeVarint (-2 ^ 63 - 1)).length) ∧
      ¬ ((∃ message, decodeVarint (encodeVarint (-2 ^ 63 - 1)) = .error (.invalid message)) ∨
        decodeVarint (encodeVarint (-2 ^ 63 - 1)) =
          .ok (-2 ^ 63 - 1, (encodeVarint (-2 ^ 63 - 1)).length)) := by
  have hencode : (zigzagEncode (-2 ^ 63 - 1)).toNat = 2 ^ 64 := by decide
  have hdecode : zigzagDecode ((2 ^ 64 : ℕ) : ℤ) = 2 ^ 63 := by decide
  have h : decodeVarint (encodeVarint (-2 ^ 63 - 1)) =
      .ok (2 ^ 63, (encodeVarint (-2 ^ 63 - 1)).length) := by
    rcases decodeVarint_encodeVarint_cases (-2 ^ 63 - 1) with ⟨-, heq⟩ | ⟨hge, -⟩
    · rwa [hencode, hdecode] at heq
    · rw [hencode] at hge
      exact absurd hge (by decide)
  refine ⟨h, ?_⟩
  rw [h]
  rintro (⟨message, herror⟩ | hok)
  · cases herror
  · exact absurd (congrArg Prod.fst (Except.ok.inj hok)) (by decide)

end Relay
