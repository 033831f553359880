import Relay.Errors
import Mathlib.Algebra.GroupWithZero.Nat

/-!
# Records

The unit of delivery: a value, an optional key and headers, with the checksum computed when the
record was built. The three conditions the constructor checks are fields, so a record that it
would refuse cannot be written down. The digest is a hash from the standard library; it enters
as a parameter, and no result here depends on what it computes.

## Main definitions

* `Record`, with `create` and `sizeBytes`
* `isBlank`: nothing is left of a name that is stripped
-/

namespace Relay

/-- A byte string. -/
abbrev Bytes := List UInt8

/-- `MAX_VALUE_BYTES`. -/
def maxValueBytes : ℕ := 1000000

/-- The characters that `str.strip` removes from both ends of a text. -/
def isSpace (c : Char) : Bool :=
  let n := c.toNat
  (9 ≤ n && n ≤ 13) || (28 ≤ n && n ≤ 32) || n == 0x85 || n == 0xa0 || n == 0x1680 ||
    (0x2000 ≤ n && n ≤ 0x200a) || n == 0x2028 || n == 0x2029 || n == 0x202f || n == 0x205f ||
    n == 0x3000

/-- `not name.strip()`: nothing is left of the name once its blanks are stripped. -/
def isBlank (name : String) : Bool := name.toList.all isSpace

/-- A record the constructor accepted. -/
structure Record where
  value : Bytes
  key : Option Bytes := none
  headers : List (String × String) := []
  checksum : String := ""
  /-- An empty value is a heartbeat, not a record. -/
  value_ne_nil : value ≠ [] := by decide
  value_le : value.length ≤ maxValueBytes := by decide
  headers_named : ∀ header ∈ headers, isBlank header.1 = false := by decide
  deriving DecidableEq

namespace Record

/-- `size_bytes`: the value, the key, and the characters of the headers. -/
def sizeBytes (record : Record) : ℕ :=
  record.value.length + (record.key.getD []).length
    + (record.headers.map fun header => header.1.length + header.2.length).sum

/-- The bytes the digest is taken of: the value, the key or nothing, then each header's name and
value, joined by a bar. -/
def body (value : Bytes) (key : Option Bytes) (headers : List (String × String)) : Bytes :=
  List.intercalate [124] (value :: key.getD [] ::
    headers.flatMap fun header => [header.1.toUTF8.toList, header.2.toUTF8.toList])

/-- `Record(value, key, headers)`: the constructor, with the digest it stamps as a parameter. -/
def create (digest : Bytes → String) (value : Bytes) (key : Option Bytes)
    (headers : List (String × String)) : Except RelayError Record :=
  if hvalue : value = [] then
    .error (.invalid
      "an empty value is a heartbeat, not a record; heartbeats have their own channel")
  else if hlen : value.length ≤ maxValueBytes then
    if hnames : ∀ header ∈ headers, isBlank header.1 = false then
      .ok ⟨value, key, headers, digest (body value key headers), hvalue, hlen, hnames⟩
    else .error (.invalid "headers need names")
  else
    .error (.invalid
      (s!"value of {value.length} bytes exceeds the {maxValueBytes} cap; ship a pointer, not "
        ++ "the payload"))

end Record

end Relay
