import Mathlib.Algebra.Order.Ring.Int
import Mathlib.Data.List.Chain
import Mathlib.Data.String.Basic
import Mathlib.Order.Bounds.Basic
import Relay.Errors

/-!
# Prefix compression

Sorted keys are stored as the length of what a key shares with the key before it, and the rest of
it. Decoding rebuilds every key from the one that was rebuilt before.

What an encoder wrote is rebuilt exactly. The decoder also looks for corruption, and refuses a
shared length that is greater than the key before. But it does not ask for lengths below zero, and
a slice up to a negative bound counts from the end: such an entry drops characters of the key
before and is taken as good.

## Scope

The note on the characters that are saved is left out.

## Main definitions

* `encode` and `decode`, with `sharedLen`
* `Maximal`: an entry shares as much as it can
* `Sound`: a decoder that refuses entries or rebuilds keys as they say
* `Overruns`: a shared length is greater than the key before

## Main results

* `sharedLen_isGreatest`: what `_shared_len` counts
* `decodeLoop_encodeLoop`: a round trip from any key on
* `decodeLoop_spec`: what the decoder refuses, and when it rebuilds what entries say
* `lossless_and_sound_iff`: round trips, and the entries for which the decoder is sound
-/

namespace Relay

namespace PrefixCompression

/-- `_shared_len`. -/
def sharedLen : List Char → List Char → ℕ
  | ca :: a, cb :: b => if ca ≠ cb then 0 else sharedLen a b + 1
  | _, _ => 0

/-- The loop of `encode` that checks the order, from a position on. -/
def checkSorted : ℕ → List String → Except RelayError Unit
  | i, a :: b :: keys =>
    if b < a then
      .error (.invalid (s!"keys not sorted at position {i}; unsorted keys share short "
        ++ "prefixes and defeat the compression"))
    else checkSorted (i + 1) (b :: keys)
  | _, _ => .ok ()

/-- The loop of `encode` that writes entries, from a position on. -/
def encodeLoop (i : ℕ) (prev : String) : List String → List (ℤ × String)
  | [] => []
  | key :: keys =>
    let shared := if i = 0 then 0 else sharedLen prev.toList key.toList
    ((shared : ℤ), String.ofList (key.toList.drop shared)) :: encodeLoop (i + 1) key keys

/-- `encode`. -/
def encode (keys : List String) : Except RelayError (List (ℤ × String)) := do
  checkSorted 1 keys
  return encodeLoop 0 "" keys

/-- Where a slice up to `stop` ends in a string of some length. A negative bound counts from the
end. -/
def sliceEnd (length : ℕ) (stop : ℤ) : ℕ :=
  if stop < 0 then (length + stop).toNat else min stop.toNat length

/-- The slice of a string up to `stop`. -/
def sliceTo (s : String) (stop : ℤ) : String :=
  String.ofList (s.toList.take (sliceEnd s.length stop))

/-- The loop of `decode`, from the key before on. -/
def decodeLoop (prev : String) : List (ℤ × String) → Except RelayError (List String)
  | [] => .ok []
  | (shared, suffix) :: entries =>
    if (prev.length : ℤ) < shared then
      .error (.invalid (s!"shared length {shared} exceeds the previous key length "
        ++ s!"{prev.length}; corruption in the encoded stream"))
    else do
      let key := sliceTo prev shared ++ suffix
      let keys ← decodeLoop key entries
      return key :: keys

/-- `decode`. -/
def decode (entries : List (ℤ × String)) : Except RelayError (List String) := decodeLoop "" entries

/-! ## What entries say -/

/-- Keys, each with the one before it. -/
def withPrevious (prev : String) (keys : List String) : List (String × String) :=
  (prev :: keys).zip keys

/-- The lengths of what two words have in common at their start. -/
def commonLengths (a b : List Char) : Set ℕ :=
  {n | ∃ head, head <+: a ∧ head <+: b ∧ head.length = n}

/-- An entry for a key shares as much as it can with the key before. -/
def Maximal (entry : ℤ × String) (keys : String × String) : Prop :=
  ∃ shared : ℕ, entry.1 = shared ∧
    IsGreatest (commonLengths keys.1.toList keys.2.toList) shared

/-- A key is what its entry says: that many characters of the key before, and the suffix. -/
def Rebuilt (entry : ℤ × String) (keys : String × String) : Prop :=
  0 ≤ entry.1 ∧ entry.1 ≤ keys.1.length ∧
    keys.2 = String.ofList (keys.1.toList.take entry.1.toNat) ++ entry.2

/-- The decoder refuses the entries, or the keys are what the entries say. -/
def Sound (entries : List (ℤ × String)) : Prop :=
  (∃ text, decode entries = .error (.invalid text)) ∨
    ∃ keys, decode entries = .ok keys ∧ List.Forall₂ Rebuilt entries (withPrevious "" keys)

/-- Some shared length is greater than the key before it, where a key is as long as what is kept of
the key before and the suffix. -/
def Overruns (length : ℕ) : List (ℤ × String) → Prop
  | [] => False
  | (shared, suffix) :: entries =>
    (length : ℤ) < shared ∨ Overruns (sliceEnd length shared + suffix.length) entries

/-! ## Round trips -/

/-- Words that start with no common word but the empty one. -/
theorem isGreatest_zero {a b : List Char} (h : ∀ head, head <+: a → head <+: b → head = []) :
    IsGreatest (commonLengths a b) 0 := by
  refine ⟨⟨[], List.nil_prefix, List.nil_prefix, rfl⟩, ?_⟩
  rintro n ⟨head, ha, hb, rfl⟩
  rw [h head ha hb, List.length_nil]

/-- `_shared_len` counts the longest word that two words start with. -/
theorem sharedLen_isGreatest (a b : List Char) :
    IsGreatest (commonLengths a b) (sharedLen a b) := by
  induction a generalizing b with
  | nil => exact isGreatest_zero fun head ha _ => List.prefix_nil.mp ha
  | cons ca a ih =>
    cases b with
    | nil => exact isGreatest_zero fun head _ hb => List.prefix_nil.mp hb
    | cons cb b =>
      rw [sharedLen]
      split
      · rename_i hne
        refine isGreatest_zero fun head ha hb => ?_
        rcases head with _ | ⟨c, head⟩
        · rfl
        · exact absurd ((List.cons_prefix_cons.mp ha).1.symm.trans (List.cons_prefix_cons.mp hb).1)
            hne
      · rename_i heq
        obtain ⟨⟨head, ha, hb, hlength⟩, hmax⟩ := ih b
        rw [not_not] at heq
        subst heq
        refine ⟨⟨ca :: head, List.cons_prefix_cons.mpr ⟨rfl, ha⟩,
          List.cons_prefix_cons.mpr ⟨rfl, hb⟩, congrArg Nat.succ hlength⟩, ?_⟩
        rintro n ⟨other, ha, hb, rfl⟩
        rcases other with _ | ⟨c, other⟩
        · exact Nat.zero_le _
        · exact Nat.succ_le_succ (hmax ⟨other, (List.cons_prefix_cons.mp ha).2,
            (List.cons_prefix_cons.mp hb).2, rfl⟩)

/-- What two words share is where both of them start. -/
theorem take_sharedLen (a b : List Char) : a.take (sharedLen a b) = b.take (sharedLen a b) := by
  obtain ⟨⟨head, ha, hb, hlength⟩, -⟩ := sharedLen_isGreatest a b
  rw [← hlength, ← List.prefix_iff_eq_take.mp ha, ← List.prefix_iff_eq_take.mp hb]

theorem sharedLen_le (a b : List Char) : sharedLen a b ≤ a.length := by
  obtain ⟨⟨head, ha, -, hlength⟩, -⟩ := sharedLen_isGreatest a b
  exact hlength ▸ ha.length_le

theorem sharedLen_nil (b : List Char) : sharedLen [] b = 0 := by
  cases b <;> rfl

/-- An entry that the encoder writes. Before the first key stands the empty one, which shares
nothing. -/
theorem encodeLoop_cons {i : ℕ} {prev : String} (hfirst : i = 0 → prev = "") (key : String)
    (keys : List String) :
    encodeLoop i prev (key :: keys) =
      ((sharedLen prev.toList key.toList : ℤ),
        String.ofList (key.toList.drop (sharedLen prev.toList key.toList))) ::
      encodeLoop (i + 1) key keys := by
  rw [encodeLoop]
  rcases eq_or_ne i 0 with hi | hi
  · rw [if_pos hi, hfirst hi, String.toList_empty, sharedLen_nil]
  · rw [if_neg hi]

theorem sliceEnd_le (length : ℕ) (stop : ℤ) : sliceEnd length stop ≤ length := by
  rw [sliceEnd]
  split <;> omega

theorem sliceEnd_of_nonneg {length : ℕ} {stop : ℤ} (hnonneg : 0 ≤ stop) (hle : stop ≤ length) :
    sliceEnd length stop = stop.toNat := by
  rw [sliceEnd, if_neg hnonneg.not_gt]
  omega

theorem length_sliceTo (s : String) (stop : ℤ) :
    (sliceTo s stop).length = sliceEnd s.length stop := by
  rw [sliceTo, String.length_ofList, List.length_take, String.length_toList]
  exact min_eq_left (sliceEnd_le _ _)

/-- An entry whose shared length is not too great. -/
theorem decodeLoop_cons {prev : String} {shared : ℤ} (hle : shared ≤ prev.length) (suffix : String)
    (entries : List (ℤ × String)) :
    decodeLoop prev ((shared, suffix) :: entries) =
      (decodeLoop (sliceTo prev shared ++ suffix) entries).map
        fun keys => (sliceTo prev shared ++ suffix) :: keys := by
  rw [decodeLoop, if_neg hle.not_gt]
  rfl

/-- **A round trip** gives back the keys, whatever key stands before them. -/
theorem decodeLoop_encodeLoop {i : ℕ} {prev : String} (hfirst : i = 0 → prev = "")
    (keys : List String) : decodeLoop prev (encodeLoop i prev keys) = .ok keys := by
  induction keys generalizing i prev with
  | nil => rfl
  | cons key keys ih =>
    have hle : (sharedLen prev.toList key.toList : ℤ) ≤ prev.length := by
      have hle := sharedLen_le prev.toList key.toList
      rw [String.length_toList] at hle
      exact_mod_cast hle
    have hkey : sliceTo prev (sharedLen prev.toList key.toList) ++
        String.ofList (key.toList.drop (sharedLen prev.toList key.toList)) = key := by
      rw [sliceTo, sliceEnd_of_nonneg (Int.natCast_nonneg _) hle, Int.toNat_natCast, take_sharedLen,
        ← String.ofList_append, List.take_append_drop, String.ofList_toList]
    rw [encodeLoop_cons hfirst, decodeLoop_cons hle, hkey,
      ih fun h => absurd h (Nat.succ_ne_zero i)]
    rfl

/-- Every entry that the encoder writes shares as much as it can. -/
theorem maximal_encodeLoop {i : ℕ} {prev : String} (hfirst : i = 0 → prev = "")
    (keys : List String) :
    List.Forall₂ Maximal (encodeLoop i prev keys) (withPrevious prev keys) := by
  induction keys generalizing i prev with
  | nil => exact List.Forall₂.nil
  | cons key keys ih =>
    rw [encodeLoop_cons hfirst]
    exact List.Forall₂.cons ⟨_, rfl, sharedLen_isGreatest _ _⟩
      (ih fun h => absurd h (Nat.succ_ne_zero i))

theorem checkSorted_of_pairwise {keys : List String} (h : keys.Pairwise (· ≤ ·)) (i : ℕ) :
    checkSorted i keys = .ok () := by
  induction keys generalizing i with
  | nil => rfl
  | cons a keys ih =>
    obtain ⟨hfirst, hrest⟩ := List.pairwise_cons.mp h
    cases keys with
    | nil => rfl
    | cons b keys =>
      rw [checkSorted, if_neg (hfirst b List.mem_cons_self).not_gt]
      exact ih hrest (i + 1)

/-! ## Entries that no encoder wrote -/

/-- **What the decoder does** with entries: it refuses them when a shared length is too great, and
otherwise rebuilds keys that are what the entries say exactly when no shared length is negative. -/
theorem decodeLoop_spec (prev : String) (entries : List (ℤ × String)) :
    (Overruns prev.length entries ∧ ∃ text, decodeLoop prev entries = .error (.invalid text)) ∨
    (¬Overruns prev.length entries ∧ ∃ keys, decodeLoop prev entries = .ok keys ∧
      (List.Forall₂ Rebuilt entries (withPrevious prev keys) ↔
        ∀ entry ∈ entries, 0 ≤ entry.1)) := by
  induction entries generalizing prev with
  | nil => exact Or.inr ⟨not_false, [], rfl, by simp [withPrevious]⟩
  | cons entry entries ih =>
    obtain ⟨shared, suffix⟩ := entry
    have hrest := ih (sliceTo prev shared ++ suffix)
    rw [String.length_append, length_sliceTo] at hrest
    rcases lt_or_ge (prev.length : ℤ) shared with hover | hwithin
    · refine Or.inl ⟨Or.inl hover, ?_⟩
      rw [decodeLoop, if_pos hover]
      exact ⟨_, rfl⟩
    · rw [Overruns, or_iff_right hwithin.not_gt, decodeLoop_cons hwithin]
      rcases hrest with ⟨hover, text, hraised⟩ | ⟨hover, keys, hok, hkeys⟩
      · exact Or.inl ⟨hover, text, by rw [hraised]; rfl⟩
      · refine Or.inr ⟨hover, (sliceTo prev shared ++ suffix) :: keys, by rw [hok]; rfl, ?_⟩
        have hentry : Rebuilt (shared, suffix) (prev, sliceTo prev shared ++ suffix) ↔
            0 ≤ shared := by
          refine ⟨fun h => h.1, fun hnonneg => ⟨hnonneg, hwithin, ?_⟩⟩
          rw [sliceTo, sliceEnd_of_nonneg hnonneg hwithin]
        rw [List.forall_mem_cons, ← hentry, ← hkeys]
        exact List.forall₂_cons

/-- Where the decoder is sound. -/
theorem sound_iff (entries : List (ℤ × String)) :
    Sound entries ↔ (∀ entry ∈ entries, 0 ≤ entry.1) ∨ Overruns 0 entries := by
  have hspec := decodeLoop_spec "" entries
  rw [String.length_empty] at hspec
  rw [Sound, decode]
  rcases hspec with ⟨hover, hraised⟩ | ⟨hover, keys, hok, hkeys⟩
  · exact ⟨fun _ => Or.inr hover, fun _ => Or.inl hraised⟩
  · rw [or_iff_left hover, ← hkeys, hok]
    constructor
    · rintro (⟨text, hraised⟩ | ⟨_, heq, hrebuilt⟩)
      · cases hraised
      · rwa [Except.ok.inj heq]
    · intro hrebuilt
      exact Or.inr ⟨keys, rfl, hrebuilt⟩

/-- **Round trips and soundness.** Sorted keys come back from their entries, which share as much as
they can. The decoder is sound on those entries that have no negative shared length, and on those
that it refuses for one that is too great. -/
theorem lossless_and_sound_iff (keys : List String) (entries : List (ℤ × String)) :
    (keys.Pairwise (· ≤ ·) → ∃ written, encode keys = .ok written ∧
      decode written = .ok keys ∧ List.Forall₂ Maximal written (withPrevious "" keys)) ∧
    (Sound entries ↔ (∀ entry ∈ entries, 0 ≤ entry.1) ∨ Overruns 0 entries) := by
  refine ⟨fun hsorted => ⟨encodeLoop 0 "" keys, ?_, ?_, ?_⟩, sound_iff entries⟩
  · rw [encode, checkSorted_of_pairwise hsorted]
    rfl
  · exact decodeLoop_encodeLoop (fun _ => rfl) keys
  · exact maximal_encodeLoop (fun _ => rfl) keys

/-- A negative shared length drops characters of the key before, and is taken as good. -/
theorem negative_shared_accepted :
    decode [(0, "ab"), (-1, "c")] = .ok ["ab", "ac"] ∧ ¬Sound [(0, "ab"), (-1, "c")] := by
  refine ⟨by decide +kernel, ?_⟩
  rw [sound_iff]
  simp [Overruns, sliceEnd]

end PrefixCompression

end Relay
