import Mathlib.Data.Set.Function
import Relay.Lib.Separated
import Relay.Records

/-!
# Record digests

A record's checksum is the digest of its value, its key and its headers, joined by bars. Whoever
holds the record may take the digest again and compare.

The bars are not escaped, and a missing key is joined like an empty one. So the digest does not
cover where one field ends and the next begins, only what stands between bars in all of them
together (`pieces`). Records that differ in that have different digests. Records that do not,
although their fields differ, have the same one, whatever the hash: a key cut off a value that had a
bar in it, or a key that is empty instead of missing.

The digest is a parameter. That it tells the two joint texts apart is assumed where it is needed.

## Main definitions

* `Record.bodyDigest` and `Record.verify`
* `Record.pieces`: what the digest covers

## Main results

* `Record.covers_iff`: exactly which changes of content the digest shows
* `Record.content_of_barFree`: without bars, all but a key that is empty instead of missing
-/

namespace Relay

namespace Record

/-- `body_digest`. -/
def bodyDigest (digest : Bytes → String) (record : Record) : String :=
  digest (body record.value record.key record.headers)

/-- `verify`. -/
def verify (digest : Bytes → String) (record : Record) : Except RelayError Unit :=
  if record.checksum ≠ record.bodyDigest digest then
    .error (.invalid ("checksum mismatch: the record changed between "
      ++ "construction and now, and exactly one suspect had custody"))
  else .ok ()

/-- The fields as they are joined. -/
def fields (record : Record) : List Bytes :=
  record.value :: record.key.getD [] ::
    record.headers.flatMap fun header => [header.1.toUTF8.toList, header.2.toUTF8.toList]

/-- What stands between bars in the fields. -/
def pieces (record : Record) : List Bytes := Separated.pieces 124 record.fields

/-- Two records hold the same. -/
def SameContent (a b : Record) : Prop :=
  a.value = b.value ∧ a.key = b.key ∧ a.headers = b.headers

/-- If the content of the one is put in place of that of the other, the digest changes, and the
check refuses it. -/
def Covers (digest : Bytes → String) (a b : Record) : Prop :=
  ¬ SameContent a b → a.bodyDigest digest ≠ b.bodyDigest digest ∧
    ∃ refusal, { b with checksum := a.bodyDigest digest }.verify digest = .error refusal

/-! ### What the digest covers -/

variable {a b : Record} {digest : Bytes → String}

/-- The joint texts are equal exactly when the pieces are. -/
theorem body_eq_iff : body a.value a.key a.headers = body b.value b.key b.headers ↔
    a.pieces = b.pieces :=
  Separated.intercalate_eq_iff (List.cons_ne_nil _ _) (List.cons_ne_nil _ _)

/-- A record passes the check as it was built. -/
theorem verify_of_create {value : Bytes} {key : Option Bytes} {headers : List (String × String)}
    (h : create digest value key headers = .ok a) : a.verify digest = .ok () := by
  rw [create] at h
  split_ifs at h
  obtain rfl := Except.ok.inj h
  exact if_neg (not_not.mpr rfl)

/-- **What the digest covers.** With a hash that tells the two texts apart, a change of content
shows exactly when it is none, or changes a piece. -/
theorem covers_iff (digest : Bytes → String) (a b : Record)
    (hdigest : Set.InjOn digest {body a.value a.key a.headers, body b.value b.key b.headers}) :
    Covers digest a b ↔ SameContent a b ∨ a.pieces ≠ b.pieces := by
  have heq : a.bodyDigest digest = b.bodyDigest digest ↔ a.pieces = b.pieces := by
    rw [← body_eq_iff]
    exact hdigest.eq_iff (Set.mem_insert _ _) (Set.mem_insert_of_mem _ rfl)
  constructor
  · intro h
    refine or_iff_not_imp_left.mpr fun hdiffer hpieces => ?_
    exact (h hdiffer).1 (heq.mpr hpieces)
  · rintro (hsame | hpieces) hdiffer
    · exact absurd hsame hdiffer
    · have hne : a.bodyDigest digest ≠ b.bodyDigest digest := fun h => hpieces (heq.mp h)
      exact ⟨hne, _, if_pos hne⟩

/-! ### Fields without bars -/

theorem byteArray_toList_loop (bytes : ByteArray) (i : ℕ) (read : List UInt8) :
    ByteArray.toList.loop bytes i read = read.reverse ++ bytes.data.toList.drop i := by
  induction h : bytes.size - i generalizing i read with
  | zero =>
    rw [ByteArray.toList.loop, if_neg (by omega), List.drop_of_length_le, List.append_nil]
    exact Nat.le_of_sub_eq_zero h
  | succ n ih =>
    have hi : i < bytes.data.toList.length := show i < bytes.size by omega
    rw [ByteArray.toList.loop, if_pos (show i < bytes.size from hi), ih _ _ (by omega),
      List.reverse_cons, List.append_assoc, List.singleton_append, List.drop_eq_getElem_cons hi]
    congr 2
    exact getElem!_pos bytes.data i hi

theorem toUTF8_toList_injective : Function.Injective fun text : String => text.toUTF8.toList := by
  intro s t h
  have hlist (bytes : ByteArray) : bytes.toList = bytes.data.toList :=
    byteArray_toList_loop bytes 0 []
  change s.toUTF8.toList = t.toUTF8.toList at h
  rw [hlist, hlist] at h
  exact String.toByteArray_inj.mp (ByteArray.ext (Array.toList_inj.mp h))

theorem headers_injective {headers headers' : List (String × String)}
    (h : (headers.flatMap fun header => [header.1.toUTF8.toList, header.2.toUTF8.toList]) =
      headers'.flatMap fun header => [header.1.toUTF8.toList, header.2.toUTF8.toList]) :
    headers = headers' := by
  induction headers generalizing headers' with
  | nil =>
    cases headers' with
    | nil => rfl
    | cons header headers' => cases h
  | cons header headers ih =>
    cases headers' with
    | nil => cases h
    | cons header' headers' =>
      rw [List.flatMap_cons, List.flatMap_cons, List.cons_append, List.cons_append,
        List.cons_append, List.cons_append, List.cons.injEq, List.cons.injEq] at h
      obtain ⟨hname, hvalue, hrest⟩ := h
      rw [ih hrest, Prod.ext (toUTF8_toList_injective hname) (toUTF8_toList_injective hvalue)]

/-- **Fields without bars.** The pieces are then the fields, and tell everything but whether a key
that is empty is there at all. -/
theorem content_of_barFree (ha : ∀ field ∈ a.fields, 124 ∉ field)
    (hb : ∀ field ∈ b.fields, 124 ∉ field) (h : a.pieces = b.pieces) :
    a.value = b.value ∧ a.key.getD [] = b.key.getD [] ∧ a.headers = b.headers := by
  rw [pieces, pieces, Separated.pieces_eq_self ha, Separated.pieces_eq_self hb, fields, fields,
    List.cons.injEq, List.cons.injEq] at h
  exact ⟨h.1, h.2.1, headers_injective h.2.2⟩

/-! ### Two changes -/

/-- The values that SHA-256 has, cut to sixteen digits, at the texts of two orders. -/
def orderDigest (payload : Bytes) : String :=
  if payload = "order-1|k".toUTF8.toList then "1de55794127b5cc4" else "041b9ec1b678fd24"

theorem headers_named_nil :
    ∀ header ∈ ([] : List (String × String)), isBlank header.1 = false :=
  List.forall_mem_nil _

/-- An order, and another one put in its place. -/
def order : Record where
  value := [111, 114, 100, 101, 114, 45, 49]
  key := some [107]
  headers_named := headers_named_nil

def otherOrder : Record where
  value := [111, 114, 100, 101, 114, 45, 50]
  key := some [107]
  headers_named := headers_named_nil

/-- **The theorem at two orders.** -/
theorem order_covered : Covers orderDigest order otherOrder := by
  refine (covers_iff orderDigest order otherOrder ?_).mpr (Or.inr (by decide +kernel))
  rw [Set.injOn_pair]
  intro h
  exact absurd h (by decide +kernel)

/-- A bar and what follows it moved from the value into the key, and a key that is empty instead of
missing. No digest shows either. -/
theorem moved_bar_unseen :
    (∀ digest : Bytes → String, ¬ Covers digest { value := [97, 124, 98], key := some [99] }
      { value := [97], key := some [98, 124, 99] }) ∧
    ∀ digest : Bytes → String, ¬ Covers digest { value := [97], key := none }
      { value := [97], key := some [] } := by
  constructor
  · intro digest h
    exact (h (by unfold SameContent; decide)).1 rfl
  · intro digest h
    exact (h (by unfold SameContent; decide)).1 rfl

end Record

end Relay
