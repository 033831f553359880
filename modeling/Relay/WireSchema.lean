import Mathlib.Algebra.Order.Ring.Int
import Mathlib.Data.Finset.Basic
import Relay.Errors
import Relay.Lib.BigEndian
import Relay.Records

/-!
# Records with the id of their schema

A record on the wire starts with a magic byte and the id of the schema it was written with, in four
bytes; the payload follows. What is read is refused if it is too short for that, if the magic byte
is another one, or if nobody has registered the schema.

## Main definitions

* `SchemaEnvelope`, with `encode`, `decode` and `describe`

## Main results

* `SchemaEnvelope.decode_answers`: what is read is what was written, and what is refused
-/

namespace Relay

/-- The ids of the schemas that are registered. -/
structure SchemaEnvelope where
  knownIds : Finset ℤ
  deriving DecidableEq

namespace SchemaEnvelope

/-- `_MAGIC`. -/
def magic : UInt8 := 0

/-- `_PREFIX`: a magic byte and four bytes of the schema id. -/
def prefixLength : ℕ := 5

/-- What a record is refused with that ends within the prefix. -/
def tooShort : RelayError :=
  .invalid "buffer too short for the schema prefix; truncated or not a schema-framed record"

/-- What a record is refused with that starts with another byte. -/
def unknownMagic (byte : UInt8) : RelayError :=
  .invalid (s!"unknown magic byte {byte.toNat}; a record not in this " ++
    "format, decoding it would turn arbitrary bytes into a bogus schema id")

/-- What a record is refused with whose schema nobody knows. -/
def notRegistered (schemaId : ℤ) : RelayError :=
  .invalid (s!"schema id {schemaId} is not registered; the record " ++
    "references a schema never registered or deleted")

/-- `encode`. -/
def encode (schemaId : ℤ) (payload : Bytes) : Except RelayError Bytes :=
  if schemaId < 0 ∨ 0xFFFFFFFF < schemaId then .error (.invalid "schema id must fit in four bytes")
  else .ok (magic :: toBigEndian 4 schemaId.toNat ++ payload)

/-- `decode`. -/
def decode (envelope : SchemaEnvelope) : Bytes → Except RelayError (ℤ × Bytes)
  | [] => .error tooShort
  | byte :: rest =>
    if rest.length + 1 < prefixLength then .error tooShort
    else if byte ≠ magic then .error (unknownMagic byte)
    else
      let schemaId : ℤ := ofBigEndian (rest.take 4)
      if schemaId ∉ envelope.knownIds then .error (notRegistered schemaId)
      else .ok (schemaId, rest.drop 4)

/-- `describe`. -/
def describe (envelope : SchemaEnvelope) (data : Bytes) : Except RelayError String :=
  (envelope.decode data).map fun record =>
    s!"schema id {record.1}, payload {record.2.length} byte(s); a new " ++
      "id appearing is a producer that deployed a schema change"

variable {envelope : SchemaEnvelope} {schemaId : ℤ} {payload data : Bytes}

/-- What is written is the magic byte, four bytes that stand for the id, and the payload. -/
theorem encode_eq_ok_iff :
    encode schemaId payload = .ok data ↔
      ∃ bytes : Bytes, bytes.length = 4 ∧ schemaId = ofBigEndian bytes ∧
        data = magic :: bytes ++ payload := by
  rw [encode]
  constructor
  · intro h
    split at h
    · cases h
    · next hfits =>
      rw [not_or, not_lt, not_lt] at hfits
      refine ⟨toBigEndian 4 schemaId.toNat, length_toBigEndian _ _, ?_, (Except.ok.inj h).symm⟩
      rw [ofBigEndian_toBigEndian (by omega), Int.toNat_of_nonneg hfits.1]
  · rintro ⟨bytes, hlength, rfl, rfl⟩
    have hlt := ofBigEndian_lt bytes
    rw [hlength] at hlt
    rw [if_neg (by omega), Int.toNat_natCast, ← hlength, toBigEndian_ofBigEndian]

/-- What a record is read as that has the whole prefix. -/
theorem decode_append {bytes : Bytes} (hlength : bytes.length = 4) (byte : UInt8) (rest : Bytes) :
    envelope.decode (byte :: bytes ++ rest) =
      if byte ≠ magic then .error (unknownMagic byte)
      else if (ofBigEndian bytes : ℤ) ∉ envelope.knownIds then
        .error (notRegistered (ofBigEndian bytes))
      else .ok (ofBigEndian bytes, rest) := by
  rw [List.cons_append, decode, if_neg, List.take_left' hlength, List.drop_left' hlength]
  rw [List.length_append, hlength, prefixLength]
  omega

/-- A record is too short or has the whole prefix. -/
theorem tooShort_or_split (envelope : SchemaEnvelope) (data : Bytes) :
    (data.length < prefixLength ∧ envelope.decode data = .error tooShort) ∨
      ∃ (byte : UInt8) (bytes rest : Bytes), bytes.length = 4 ∧ data = byte :: bytes ++ rest := by
  cases data with
  | nil => exact Or.inl ⟨by decide, rfl⟩
  | cons byte rest =>
    by_cases hshort : rest.length + 1 < prefixLength
    · exact Or.inl ⟨hshort, by rw [decode, if_pos hshort]⟩
    · rw [prefixLength] at hshort
      refine Or.inr ⟨byte, rest.take 4, rest.drop 4, ?_, ?_⟩
      · rw [List.length_take]
        omega
      · rw [List.cons_append, List.take_append_drop]

/-- **The round trip, both ways.** A record is read as a schema id and a payload exactly if the
schema is registered and the record is what is written for the two. All others are refused: those
that end within the prefix, those with another magic byte, and those of a schema that is not
registered. -/
theorem decode_answers (envelope : SchemaEnvelope) (data : Bytes) :
    (∀ schemaId payload, envelope.decode data = .ok (schemaId, payload) ↔
        encode schemaId payload = .ok data ∧ schemaId ∈ envelope.knownIds) ∧
      (data.length < prefixLength → envelope.decode data = .error tooShort) ∧
      (∀ byte, prefixLength ≤ data.length → data.head? = some byte → byte ≠ magic →
        envelope.decode data = .error (unknownMagic byte)) ∧
      ∀ schemaId payload, encode schemaId payload = .ok data → schemaId ∉ envelope.knownIds →
        envelope.decode data = .error (notRegistered schemaId) := by
  rcases tooShort_or_split envelope data with ⟨hshort, hdecode⟩ | ⟨byte, bytes, rest, hlength, rfl⟩
  · have hnot : ∀ schemaId payload, encode schemaId payload ≠ .ok data := by
      intro schemaId payload h
      obtain ⟨bytes, hlength, -, rfl⟩ := encode_eq_ok_iff.mp h
      rw [List.length_append, List.length_cons, hlength, prefixLength] at hshort
      omega
    rw [hdecode]
    refine ⟨fun schemaId payload => iff_of_false (fun h => by cases h) fun h => hnot _ _ h.1,
      fun _ => rfl, fun byte hlong => absurd hlong (not_le.mpr hshort),
      fun schemaId payload h => ?_⟩
    exact absurd h (hnot schemaId payload)
  · have hlong : prefixLength ≤ (byte :: bytes ++ rest).length := by
      rw [List.length_append, List.length_cons, hlength, prefixLength]
      omega
    have hencode : ∀ schemaId payload, encode schemaId payload = .ok (byte :: bytes ++ rest) ↔
        byte = magic ∧ schemaId = ofBigEndian bytes ∧ payload = rest := by
      intro schemaId payload
      rw [encode_eq_ok_iff]
      constructor
      · rintro ⟨bytes', hlength', rfl, hsplit⟩
        obtain ⟨rfl, hbytes⟩ := List.cons.inj hsplit
        obtain ⟨rfl, rfl⟩ := List.append_inj hbytes (hlength.trans hlength'.symm)
        exact ⟨rfl, rfl, rfl⟩
      · rintro ⟨rfl, rfl, rfl⟩
        exact ⟨bytes, hlength, rfl, rfl⟩
    rw [decode_append hlength]
    refine ⟨fun schemaId payload => ?_, fun hshort => absurd hshort (not_lt.mpr hlong),
      fun first _ hfirst hmagic => ?_, fun schemaId payload h hunknown => ?_⟩
    · rw [hencode]
      by_cases hmagic : byte = magic
      · rw [if_neg (not_not.mpr hmagic)]
        by_cases hknown : (ofBigEndian bytes : ℤ) ∈ envelope.knownIds
        · rw [if_neg (not_not.mpr hknown), Except.ok.injEq, Prod.mk.injEq]
          constructor
          · rintro ⟨rfl, rfl⟩
            exact ⟨⟨hmagic, rfl, rfl⟩, hknown⟩
          · rintro ⟨⟨-, rfl, rfl⟩, -⟩
            exact ⟨rfl, rfl⟩
        · rw [if_pos hknown]
          refine iff_of_false (fun h => by cases h) ?_
          rintro ⟨⟨-, rfl, -⟩, hmem⟩
          exact hknown hmem
      · rw [if_pos hmagic]
        exact iff_of_false (fun h => by cases h) fun h => hmagic h.1.1
    · obtain rfl := Option.some.inj hfirst
      rw [if_pos hmagic]
    · obtain ⟨rfl, rfl, rfl⟩ := (hencode schemaId payload).mp h
      rw [if_neg (not_not.mpr rfl), if_pos hunknown]

end SchemaEnvelope

end Relay
