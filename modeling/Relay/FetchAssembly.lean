import Mathlib.Algebra.BigOperators.Group.List.Basic
import Mathlib.Algebra.Order.Ring.Int
import Mathlib.Data.List.GetD
import Mathlib.Data.List.Rotate
import Relay.Errors
import Relay.Lib.Machine

/-!
# Fetch assembly

A fetch request names many partitions, and one response holds a bounded number of bytes. The
partitions are packed in the order of the request, begun one place further each round. Whatever
stands first is served: if it fits, it is packed, and if it is larger than the whole budget, it
goes alone, because nothing fits behind it.

So no partition waits for more rounds than there are partitions, whatever the sizes do meanwhile:
its turn to stand first comes round.

## Scope

The report on what was served and what was deferred is left out.

## Main definitions

* `FetchAssembler`, with `assemble`

## Main results

* `assemble_spec`: what one response holds
* `assemble_bounded_and_fair`: responses are bounded, and every partition has its turn
-/

namespace Relay

/-- An assembler of fetch responses. -/
structure FetchAssembler where
  responseBudget : ℤ
  rotation : ℤ := 0
  positive : 1 ≤ responseBudget

namespace FetchAssembler

/-- The loop of `assemble`, over partitions with the bytes that are available of each. -/
def pack (responseBudget : ℤ) :
    List (ℤ × ℤ) → List ℤ → List ℤ → ℤ → List ℤ × List ℤ
  | [], served, deferred, _ => (served, deferred)
  | (partition, size) :: order, served, deferred, used =>
    if responseBudget < size ∧ served = [] then
      pack responseBudget order (served ++ [partition]) deferred size
    else if used + size ≤ responseBudget then
      pack responseBudget order (served ++ [partition]) deferred (used + size)
    else
      pack responseBudget order served (deferred ++ [partition]) used

/-- The partitions from the one at the rotation on. The index is always in range. -/
def order (rotation : ℤ) (available : List (ℤ × ℤ)) : List (ℤ × ℤ) :=
  (List.range available.length).map fun (i : ℕ) =>
    available.getD ((rotation + i) % available.length).toNat (0, 0)

/-- `assemble`. -/
def assemble (assembler : FetchAssembler) (available : List (ℤ × ℤ)) :
    Except RelayError (List ℤ × List ℤ) × FetchAssembler :=
  if available = [] then (.error (.invalid "no partitions to assemble"), assembler)
  else
    let (served, deferred) :=
      pack assembler.responseBudget (order assembler.rotation available) [] [] 0
    (.ok (served.mergeSort fun p q => p ≤ q, deferred.mergeSort fun p q => p ≤ q),
      { assembler with rotation := (assembler.rotation + 1) % available.length })

end FetchAssembler

/-- An assembler as a machine. -/
def fetchAssembler :
    Machine FetchAssembler (List (ℤ × ℤ)) (Except RelayError (List ℤ × List ℤ)) where
  step assembler available := assembler.assemble available

namespace FetchAssembler

/-! ### Packing -/

/-- Behind something served, partitions are packed as long as there is room, and behind something
oversized there is none. -/
theorem pack_of_served (responseBudget : ℤ) {items : List (ℤ × ℤ)}
    (hsizes : ∀ item ∈ items, 0 ≤ item.2) (served : List ℤ) (hserved : served ≠ [])
    (deferred : List ℤ) (used : ℤ) :
    ∃ packed left, (packed ++ left).Perm items ∧
      pack responseBudget items served deferred used =
        (served ++ packed.map Prod.fst, deferred ++ left.map Prod.fst) ∧
      (used ≤ responseBudget → used + (packed.map Prod.snd).sum ≤ responseBudget) ∧
      (responseBudget < used → packed = []) := by
  induction items generalizing served deferred used with
  | nil => exact ⟨[], [], .nil, by simp [pack], fun h => by simpa using h, fun _ => rfl⟩
  | cons item items ih =>
    obtain ⟨partition, size⟩ := item
    have hsize : 0 ≤ size := hsizes _ List.mem_cons_self
    have hrest : ∀ item ∈ items, 0 ≤ item.2 := fun i hi => hsizes i (List.mem_cons_of_mem _ hi)
    rw [pack, if_neg fun h => hserved h.2]
    split
    · next hfits =>
      obtain ⟨packed, left, hperm, hpack, hbound, -⟩ :=
        ih hrest (served ++ [partition]) (by simp) deferred (used + size)
      refine ⟨(partition, size) :: packed, left, hperm.cons _, ?_, fun _ => ?_, fun hfull => ?_⟩
      · rw [hpack]
        simp
      · have hroom := hbound hfits
        rw [List.map_cons, List.sum_cons, ← add_assoc]
        exact hroom
      · omega
    · obtain ⟨packed, left, hperm, hpack, hbound, hfull⟩ :=
        ih hrest served hserved (deferred ++ [partition]) used
      refine ⟨packed, (partition, size) :: left, ?_, ?_, hbound, hfull⟩
      · exact List.perm_middle.trans (hperm.cons _)
      · rw [hpack]
        simp

/-- Whatever stands first is served, alone if it is larger than the budget. -/
theorem pack_cons (responseBudget : ℤ) (first : ℤ × ℤ) {items : List (ℤ × ℤ)}
    (hsizes : ∀ item ∈ items, 0 ≤ item.2) :
    ∃ packed left, (packed ++ left).Perm items ∧
      pack responseBudget (first :: items) [] [] 0 =
        ((first :: packed).map Prod.fst, left.map Prod.fst) ∧
      (first.2 ≤ responseBudget → ((first :: packed).map Prod.snd).sum ≤ responseBudget) ∧
      (responseBudget < first.2 → packed = []) := by
  obtain ⟨partition, size⟩ := first
  obtain ⟨packed, left, hperm, hpack, hbound, hfull⟩ :=
    pack_of_served responseBudget hsizes [partition] (by simp) [] size
  refine ⟨packed, left, hperm, ?_, fun h => ?_, hfull⟩
  · have hfirst : pack responseBudget ((partition, size) :: items) [] [] 0 =
        pack responseBudget items [partition] [] size := by
      rw [pack]
      split
      · rfl
      · next hfits =>
        rw [if_pos (by simpa using hfits), zero_add]
        rfl
    rw [hfirst, hpack]
    rfl
  · simpa using hbound h

/-! ### One response -/

/-- Where the rotation points to. -/
def position (rotation : ℤ) (available : List (ℤ × ℤ)) : ℕ :=
  (rotation % available.length).toNat

theorem position_lt (rotation : ℤ) {available : List (ℤ × ℤ)} (hne : available ≠ []) :
    position rotation available < available.length := by
  have hpos : (0 : ℤ) < available.length := Int.natCast_pos.mpr (List.length_pos_iff.mpr hne)
  have hlt := Int.emod_lt_of_pos rotation hpos
  rw [position]
  omega

theorem order_eq_rotate (rotation : ℤ) (available : List (ℤ × ℤ)) :
    order rotation available = available.rotate (position rotation available) := by
  refine List.ext_getElem? fun i => ?_
  rcases lt_or_ge i available.length with hi | hi
  · have hpos : (0 : ℤ) < available.length := by omega
    have hindex : ((rotation + i) % available.length).toNat =
        (i + position rotation available) % available.length := by
      rw [position, ← Int.toNat_natCast ((i + _) % _), Int.natCast_emod, Int.natCast_add,
        Int.toNat_of_nonneg (Int.emod_nonneg _ hpos.ne'), Int.add_emod_emod, add_comm]
    have hlt := Nat.mod_lt (i + position rotation available) (Int.natCast_pos.mp hpos)
    rw [order, List.getElem?_map, List.getElem?_range hi, List.getElem?_rotate hi, Option.map_some,
      hindex, List.getD_eq_getElem _ _ hlt, List.getElem?_eq_getElem hlt]
  · rw [List.getElem?_eq_none (by simpa [order] using hi),
      List.getElem?_eq_none (by simpa using hi)]

/-- **One response.** It holds some of the partitions, among them the one the rotation points to,
and no more bytes than the budget unless a single oversized partition goes alone. -/
theorem assemble_spec (assembler : FetchAssembler) {available : List (ℤ × ℤ)}
    (hne : available ≠ []) (hsizes : ∀ item ∈ available, 0 ≤ item.2) :
    ∃ served deferred, (served ++ deferred).Perm available ∧
      assembler.assemble available =
        (.ok ((served.map Prod.fst).mergeSort fun p q => p ≤ q,
            (deferred.map Prod.fst).mergeSort fun p q => p ≤ q),
          { assembler with rotation := (assembler.rotation + 1) % available.length }) ∧
      ((served.map Prod.snd).sum ≤ assembler.responseBudget ∨
        ∃ item, served = [item] ∧ assembler.responseBudget < item.2) ∧
      ∀ item, available[position assembler.rotation available]? = some item → item ∈ served := by
  have hperm := available.rotate_perm (position assembler.rotation available)
  have hhead := List.head?_rotate (position_lt assembler.rotation hne)
  rw [assemble, if_neg hne, order_eq_rotate]
  cases horder : available.rotate (position assembler.rotation available) with
  | nil => exact absurd (List.rotate_eq_nil_iff.mp horder) hne
  | cons first items =>
    rw [horder] at hperm hhead
    obtain ⟨packed, left, hitems, hpack, hbound, hfull⟩ := pack_cons assembler.responseBudget first
      fun item hitem => hsizes item (hperm.subset (List.mem_cons_of_mem _ hitem))
    refine ⟨first :: packed, left, (hitems.cons first).trans hperm, ?_, ?_, fun item hitem => ?_⟩
    · rw [hpack]
    · rcases le_or_gt first.2 assembler.responseBudget with hfits | hlarge
      · exact Or.inl (hbound hfits)
      · exact Or.inr ⟨first, by rw [hfull hlarge], hlarge⟩
    · rw [hitem] at hhead
      obtain rfl := Option.some.inj hhead
      exact List.mem_cons_self

/-! ### Turns -/

/-- Each response moves the rotation on by one, modulo the number of partitions. -/
theorem rotation_final (assembler : FetchAssembler) (requests : List (List (ℤ × ℤ))) {n : ℕ}
    (hpos : 0 < n) (hlength : ∀ available ∈ requests, available.length = n) :
    (fetchAssembler.final assembler requests).rotation % n =
      (assembler.rotation + requests.length) % n := by
  induction requests generalizing assembler with
  | nil => simp
  | cons available requests ih =>
    have havailable := hlength available List.mem_cons_self
    have hne : available ≠ [] := List.length_pos_iff.mp (havailable ▸ hpos)
    have hstep : (fetchAssembler.step assembler available).2.rotation =
        (assembler.rotation + 1) % n := by
      show (assembler.assemble available).2.rotation = _
      rw [assemble, if_neg hne, havailable]
    rw [Machine.final_cons, ih _ fun a ha => hlength a (List.mem_cons_of_mem _ ha), hstep,
      Int.emod_add_emod, List.length_cons, Int.natCast_succ]
    congr 1
    omega

/-- The turn of a position comes within as many responses as there are partitions. -/
theorem exists_turn (rotation : ℤ) {n j : ℕ} (hj : j < n) :
    ∃ t < n, ((rotation + t) % n).toNat = j := by
  have hpos : (0 : ℤ) < n := by omega
  have hlt := Int.emod_lt_of_pos (j - rotation) hpos
  have hnonneg := Int.emod_nonneg (j - rotation) hpos.ne'
  refine ⟨((j - rotation) % n).toNat, by omega, ?_⟩
  rw [Int.toNat_of_nonneg hnonneg, Int.add_emod_emod, add_sub_cancel,
    Int.emod_eq_of_lt (Int.natCast_nonneg j) (by omega), Int.toNat_natCast]

/-- **Every turn comes.** As many responses as there are partitions serve each of them. -/
theorem served_of_turns (assembler : FetchAssembler) {partitions : List ℤ}
    {requests : List (List (ℤ × ℤ))} (hlength : requests.length = partitions.length)
    (hsame : ∀ available ∈ requests, available.map Prod.fst = partitions)
    (hsizes : ∀ available ∈ requests, ∀ item ∈ available, 0 ≤ item.2) {partition : ℤ}
    (hpartition : partition ∈ partitions) :
    ∃ e ∈ fetchAssembler.trace assembler requests, ∃ served deferred,
      e.2 = .ok (served, deferred) ∧ partition ∈ served := by
  obtain ⟨j, hj, hget⟩ := List.getElem_of_mem hpartition
  obtain ⟨t, ht, hturn⟩ := exists_turn assembler.rotation hj
  have hsize : ∀ available ∈ requests, available.length = partitions.length := by
    intro available ha
    rw [← hsame available ha, List.length_map]
  have htlt : t < requests.length := hlength ▸ ht
  -- the request at whose turn the partition stands first
  set available := requests[t]
  have hmem : available ∈ requests := List.getElem_mem htlt
  set reached := fetchAssembler.final assembler (requests.take t)
  have hrotation : position reached.rotation available = j := by
    have hpos : 0 < partitions.length := Nat.zero_lt_of_lt hj
    have hfinal := rotation_final assembler (requests.take t) hpos
      fun a ha => hsize a (List.mem_of_mem_take ha)
    rw [List.length_take_of_le htlt.le] at hfinal
    rw [position, hsize available hmem, hfinal, hturn]
  have hne : available ≠ [] := List.length_pos_iff.mp (by rw [hsize available hmem]; omega)
  obtain ⟨served, deferred, -, hok, -, hfirst⟩ :=
    reached.assemble_spec hne (hsizes available hmem)
  refine ⟨(available, (reached.assemble available).1), ?_, _, _, congrArg Prod.fst hok, ?_⟩
  · refine List.mem_of_getElem? (i := t) ?_
    rw [Machine.getElem?_trace, List.getElem?_eq_getElem htlt]
    rfl
  · have hjlt : j < available.length := by rw [hsize available hmem]; exact hj
    have hitem := hfirst available[j] (by rw [hrotation, List.getElem?_eq_getElem hjlt])
    rw [List.mem_mergeSort]
    refine List.mem_map.mpr ⟨available[j], hitem, ?_⟩
    have hsome : (available.map Prod.fst)[j]? = some partition := by
      rw [hsame available hmem, List.getElem?_eq_getElem hj, hget]
    rw [List.getElem?_map, List.getElem?_eq_getElem hjlt] at hsome
    exact Option.some.inj hsome

/-- **Fetch assembly.** A response serves some partitions and defers the others, and it serves no
more bytes than the budget unless it is a single oversized partition. And when the same partitions
are requested in the same order again and again, with any sizes, any run of as many responses as
there are partitions serves each of them. -/
theorem assemble_bounded_and_fair (assembler : FetchAssembler) :
    (∀ available : List (ℤ × ℤ), available ≠ [] → (∀ item ∈ available, 0 ≤ item.2) →
      ∃ served deferred, (assembler.assemble available).1 = .ok (served, deferred) ∧
        (served ++ deferred).Perm (available.map Prod.fst) ∧
        ∃ packed left, (packed ++ left).Perm available ∧ served.Perm (packed.map Prod.fst) ∧
          deferred.Perm (left.map Prod.fst) ∧
          ((packed.map Prod.snd).sum ≤ assembler.responseBudget ∨
            ∃ item, packed = [item] ∧ assembler.responseBudget < item.2)) ∧
      ∀ (partitions : List ℤ) (requests : List (List (ℤ × ℤ))),
        requests.length = partitions.length →
        (∀ available ∈ requests, available.map Prod.fst = partitions) →
        (∀ available ∈ requests, ∀ item ∈ available, 0 ≤ item.2) →
        ∀ partition ∈ partitions, ∃ e ∈ fetchAssembler.trace assembler requests,
          ∃ served deferred, e.2 = .ok (served, deferred) ∧ partition ∈ served := by
  refine ⟨fun available hne hsizes => ?_, fun partitions requests hlength hsame hsizes partition =>
    assembler.served_of_turns hlength hsame hsizes⟩
  obtain ⟨packed, left, hperm, hok, hbound, -⟩ := assembler.assemble_spec hne hsizes
  have hserved := List.mergeSort_perm (packed.map Prod.fst) fun p q => decide (p ≤ q)
  have hdeferred := List.mergeSort_perm (left.map Prod.fst) fun p q => decide (p ≤ q)
  refine ⟨_, _, congrArg Prod.fst hok, ?_, packed, left, hperm, hserved, hdeferred, hbound⟩
  have hmap := hperm.map Prod.fst
  rw [List.map_append] at hmap
  exact (hserved.append hdeferred).trans hmap

/-- Two partitions neither of which ever fits: in the second response the other one is served. -/
theorem oversized_served_in_turn :
    ∃ e ∈ fetchAssembler.trace ⟨10, 0, by decide⟩ [[(7, 20), (8, 30)], [(7, 40), (8, 11)]],
      ∃ served deferred, e.2 = .ok (served, deferred) ∧ (8 : ℤ) ∈ served :=
  (assemble_bounded_and_fair ⟨10, 0, by decide⟩).2 [7, 8] _ rfl (by decide) (by decide) 8
    (by decide)

end FetchAssembler

end Relay
