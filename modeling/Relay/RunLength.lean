import Mathlib.Algebra.Order.Ring.Int
import Mathlib.Data.List.Chain
import Relay.Errors

/-!
# Run lengths

A run of the same value is stored as the value and how often it comes. The encoder goes through the
values and closes a run when another value comes; the decoder writes every run out again and refuses
a run of no values.

Of all the ways to write a list down in runs the encoder finds the one with the fewest, which is the
only one in which no two runs of one value are next to each other.

## Main definitions

* `RunLength.encode`, `RunLength.decode`, `RunLength.compressionNote`

## Main results

* `RunLength.decode_eq_ok_iff`: what is decoded, and when
* `RunLength.encode_answers`: the round trip, and the fewest runs
* `RunLength.length_encode_eq_iff`: when nothing is saved
-/

namespace Relay

namespace RunLength

/-- What a run is refused with that has no values. -/
def noRun (count : ℤ) : RelayError :=
  .invalid s!"run count {count} cannot describe a run; corruption in the encoded stream"

/-- The loop of `encode`. -/
def encodeLoop (current count : ℤ) : List ℤ → List (ℤ × ℤ)
  | [] => [(current, count)]
  | v :: rest =>
    if v = current then encodeLoop current (count + 1) rest
    else (current, count) :: encodeLoop v 1 rest

/-- `encode`. -/
def encode : List ℤ → List (ℤ × ℤ)
  | [] => []
  | v :: rest => encodeLoop v 1 rest

/-- `decode`. -/
def decode : List (ℤ × ℤ) → Except RelayError (List ℤ)
  | [] => .ok []
  | (value, count) :: rest =>
    if count < 1 then .error (noRun count)
    else (decode rest).map fun out => List.replicate count.toNat value ++ out

/-- `compression_note`. -/
def compressionNote (values : List ℤ) : String :=
  if values = [] then "empty sequence; nothing to encode"
  else
    let runs := encode values
    let saved : ℤ := values.length - runs.length
    if saved ≤ 0 then
      s!"{values.length} value(s) encoded to {runs.length} run(s); no saving, " ++
        "the data was not runny and run-length encoding should not have been applied here"
    else
      s!"{values.length} value(s) compressed to {runs.length} run(s), saved {saved}; " ++
        "runny data, the encoding earns its place"

variable {values rest : List ℤ} {runs : List (ℤ × ℤ)} {c n : ℤ}

/-- A run that is written out. -/
def expand (run : ℤ × ℤ) : List ℤ := List.replicate run.2.toNat run.1

/-! ## Decoding -/

/-- **What is decoded.** Every run is written out, provided that none is empty. -/
theorem decode_eq_ok_iff :
    decode runs = .ok values ↔ (∀ run ∈ runs, 1 ≤ run.2) ∧ values = runs.flatMap expand := by
  induction runs generalizing values with
  | nil =>
    rw [decode, Except.ok.injEq, List.flatMap_nil, and_iff_right (List.forall_mem_nil _)]
    exact eq_comm
  | cons run runs ih =>
    obtain ⟨value, count⟩ := run
    rw [decode, List.forall_mem_cons, List.flatMap_cons]
    by_cases hcount : count < 1
    · rw [if_pos hcount]
      exact iff_of_false (fun h => by cases h) fun h => absurd h.1.1 (not_le.mpr hcount)
    · rw [if_neg hcount]
      cases hdecode : decode runs with
      | error error =>
        refine iff_of_false (fun h => by cases h) ?_
        rintro ⟨⟨-, hruns⟩, -⟩
        cases hdecode.symm.trans (ih.mpr ⟨hruns, rfl⟩)
      | ok out =>
        obtain ⟨hruns, rfl⟩ := ih.mp hdecode
        rw [Except.map, Except.ok.injEq, and_iff_left hruns, and_iff_right (not_lt.mp hcount)]
        exact eq_comm

/-! ## Encoding -/

/-- A run that goes on. -/
theorem encodeLoop_replicate (c n : ℤ) (k : ℕ) (rest : List ℤ) :
    encodeLoop c n (List.replicate k c ++ rest) = encodeLoop c (n + k) rest := by
  induction k generalizing n with
  | zero => rw [Nat.cast_zero, Int.add_zero]; rfl
  | succ k ih =>
    rw [List.replicate_succ, List.cons_append, encodeLoop, if_pos rfl, ih, Nat.cast_add,
      Int.add_assoc, Int.add_comm 1]
    rfl

/-- A run that another value ends, or none. -/
theorem encodeLoop_of_head_ne (h : ∀ v ∈ rest.head?, v ≠ c) :
    encodeLoop c n rest = (c, n) :: encode rest := by
  cases rest with
  | nil => rfl
  | cons v rest => rw [encodeLoop, if_neg (h v rfl), encode]

theorem length_encodeLoop (c n m : ℤ) (rest : List ℤ) :
    (encodeLoop c n rest).length = (encodeLoop c m rest).length := by
  induction rest generalizing c n m with
  | nil => rfl
  | cons v rest ih =>
    rw [encodeLoop, encodeLoop]
    split
    · exact ih _ _ _
    · rfl

/-- What the loop gives begins with the value of the run it is in. -/
theorem head?_encodeLoop (c n : ℤ) (rest : List ℤ) :
    ∃ count, (encodeLoop c n rest).head? = some (c, count) := by
  induction rest generalizing n with
  | nil => exact ⟨n, rfl⟩
  | cons v rest ih =>
    rw [encodeLoop]
    split
    · exact ih _
    · exact ⟨n, rfl⟩

theorem expand_encodeLoop (hn : 1 ≤ n) (rest : List ℤ) :
    (∀ run ∈ encodeLoop c n rest, 1 ≤ run.2) ∧
      (encodeLoop c n rest).flatMap expand = List.replicate n.toNat c ++ rest := by
  induction rest generalizing c n with
  | nil =>
    refine ⟨List.forall_mem_singleton.mpr hn, ?_⟩
    rw [encodeLoop, List.flatMap_singleton, List.append_nil]
    rfl
  | cons v rest ih =>
    rw [encodeLoop]
    by_cases hv : v = c
    · obtain ⟨hcounts, hexpand⟩ := ih (c := c) (n := n + 1) (by omega)
      rw [if_pos hv]
      refine ⟨hcounts, ?_⟩
      rw [hexpand, hv, show (n + 1).toNat = n.toNat + 1 by omega, List.replicate_succ',
        List.append_assoc]
      rfl
    · obtain ⟨hcounts, hexpand⟩ := ih (c := v) (n := 1) le_rfl
      rw [if_neg hv, List.forall_mem_cons, List.flatMap_cons, hexpand]
      exact ⟨⟨hn, hcounts⟩, rfl⟩

theorem isChain_encodeLoop (c n : ℤ) (rest : List ℤ) :
    (encodeLoop c n rest).IsChain fun a b => a.1 ≠ b.1 := by
  induction rest generalizing c n with
  | nil => exact List.IsChain.singleton _
  | cons v rest ih =>
    rw [encodeLoop]
    split
    · exact ih _ _
    · next hv =>
      refine List.isChain_cons.mpr ⟨fun run hrun => ?_, ih _ _⟩
      obtain ⟨count, hhead⟩ := head?_encodeLoop v 1 rest
      rw [hhead] at hrun
      obtain rfl := Option.some.inj hrun
      exact Ne.symm hv

/-- No two runs next to each other have the same value. -/
theorem isChain_encode (values : List ℤ) : (encode values).IsChain fun a b => a.1 ≠ b.1 := by
  cases values with
  | nil => exact List.IsChain.nil
  | cons v rest => exact isChain_encodeLoop v 1 rest

theorem decode_encode (values : List ℤ) : decode (encode values) = .ok values := by
  cases values with
  | nil => rfl
  | cons v rest =>
    obtain ⟨hcounts, hexpand⟩ := expand_encodeLoop (c := v) le_rfl rest
    exact decode_eq_ok_iff.mpr ⟨hcounts, hexpand.symm⟩

theorem encode_expand_append {run : ℤ × ℤ} (hrun : 1 ≤ run.2) (rest : List ℤ) :
    encode (expand run ++ rest) = encodeLoop run.1 run.2 rest := by
  obtain ⟨value, count⟩ := run
  have hcount : count.toNat = (count.toNat - 1) + 1 := by omega
  rw [expand, hcount, List.replicate_succ, List.cons_append, encode, encodeLoop_replicate]
  exact congrArg (encodeLoop value · rest) (by omega)

/-- What runs with a value each are written out to begins with the value of the first. -/
theorem head?_flatMap_expand (h : ∀ run ∈ runs, 1 ≤ run.2) :
    (runs.flatMap expand).head? = runs.head?.map Prod.fst := by
  cases runs with
  | nil => rfl
  | cons run runs =>
    have hcount : run.2.toNat = (run.2.toNat - 1) + 1 := by
      have hrun := h run List.mem_cons_self
      omega
    rw [List.flatMap_cons, expand, hcount]
    rfl

/-- Runs of which no two neighbours have the same value are what the encoder gives. -/
theorem encode_flatMap_expand (h : ∀ run ∈ runs, 1 ≤ run.2)
    (hchain : runs.IsChain fun a b => a.1 ≠ b.1) : encode (runs.flatMap expand) = runs := by
  induction runs with
  | nil => rfl
  | cons run runs ih =>
    obtain ⟨hrun, hruns⟩ := List.forall_mem_cons.mp h
    obtain ⟨hnext, hchain⟩ := List.isChain_cons.mp hchain
    rw [List.flatMap_cons, encode_expand_append hrun, encodeLoop_of_head_ne, ih hruns hchain]
    intro v hv
    rw [head?_flatMap_expand hruns] at hv
    obtain ⟨next, hhead, rfl⟩ := Option.map_eq_some_iff.mp hv
    exact Ne.symm (hnext next hhead)

/-! ## The fewest runs -/

theorem length_encodeLoop_le (c n : ℤ) (rest : List ℤ) :
    (encodeLoop c n rest).length ≤ (encode rest).length + 1 := by
  cases rest with
  | nil => exact le_rfl
  | cons v rest =>
    rw [encodeLoop]
    split
    · next hv =>
      rw [length_encodeLoop c _ 1, ← hv]
      exact Nat.le_succ _
    · exact le_rfl

theorem length_encode_flatMap_expand_le (h : ∀ run ∈ runs, 1 ≤ run.2) :
    (encode (runs.flatMap expand)).length ≤ runs.length := by
  induction runs with
  | nil => exact le_rfl
  | cons run runs ih =>
    obtain ⟨hrun, hruns⟩ := List.forall_mem_cons.mp h
    rw [List.flatMap_cons, encode_expand_append hrun]
    exact (length_encodeLoop_le _ _ _).trans (Nat.succ_le_succ (ih hruns))

/-- **Lossless, and as short as can be.** What was encoded is decoded to the same values. Of all
lists of runs that are decoded to some values the one that the encoder gives is as short as any, and
it is the only one without two runs of one value next to each other. -/
theorem encode_answers (values : List ℤ) :
    decode (encode values) = .ok values ∧
      ∀ runs, decode runs = .ok values → (encode values).length ≤ runs.length ∧
        (runs = encode values ↔ runs.IsChain fun a b => a.1 ≠ b.1) := by
  refine ⟨decode_encode values, fun runs hdecode => ?_⟩
  obtain ⟨hcounts, rfl⟩ := decode_eq_ok_iff.mp hdecode
  refine ⟨length_encode_flatMap_expand_le hcounts, fun h => ?_, fun hchain => ?_⟩
  · rw [h]
    exact isChain_encode _
  · exact (encode_flatMap_expand hcounts hchain).symm

/-- Nothing is saved if no two values next to each other are the same, and only then. -/
theorem length_encode_eq_iff (values : List ℤ) :
    (encode values).length = values.length ↔ values.IsChain (· ≠ ·) := by
  have hle : ∀ values : List ℤ, (encode values).length ≤ values.length := fun values => by
    have hsingle : values.flatMap (fun v => expand (v, 1)) = values :=
      List.flatMap_singleton' values
    have hcounts : ∀ run ∈ values.map fun v => (v, (1 : ℤ)), 1 ≤ run.2 := fun run hrun => by
      obtain ⟨v, -, rfl⟩ := List.mem_map.mp hrun
      exact le_rfl
    have hruns := length_encode_flatMap_expand_le hcounts
    rwa [List.flatMap_map, hsingle, List.length_map] at hruns
  induction values with
  | nil => exact iff_of_true rfl List.IsChain.nil
  | cons v rest ih =>
    refine Iff.trans ?_ (List.isChain_cons.trans (and_congr_right fun _ => ih.symm)).symm
    rw [encode]
    cases rest with
    | nil => exact iff_of_true rfl ⟨fun w hw => (by cases hw), rfl⟩
    | cons w rest =>
      rw [encodeLoop]
      by_cases hw : w = v
      · -- the first two values make one run
        rw [if_pos hw, length_encodeLoop v _ 1, ← hw]
        have hlength : (encodeLoop w 1 rest).length ≤ (w :: rest).length := hle (w :: rest)
        refine iff_of_false (fun h => ?_) fun h => h.1 w rfl rfl
        rw [List.length_cons] at h
        omega
      · rw [if_neg hw, List.length_cons, List.length_cons, Nat.succ_inj, encode]
        refine (and_iff_right fun x hx => ?_).symm
        obtain rfl := Option.some.inj hx
        exact Ne.symm hw

end RunLength

end Relay
