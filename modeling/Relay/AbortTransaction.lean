import Mathlib.Data.Int.Order.Basic
import Mathlib.Data.List.Induction
import Mathlib.Data.List.Pairwise
import Mathlib.Order.Basic
import Relay.Errors
import Relay.Lib.Dict

/-!
# Aborted transactions

The records of an aborted transaction stay in the log and read-committed consumers skip them. The
repository has two indexes for this. `AbortedIndex` keeps a range of offsets for every aborted
transaction. `AbortedTransactions` keeps one start offset for each producer, the first offset of
the transaction it aborted last, and skips the producer's records from there on.

Both are fed from one history, in which every producer runs its transactions one after another.
The ranges always tell which records to skip. The start offsets do exactly when no producer goes
on after an abort (`filterForReadCommitted_exact_iff`): a later transaction that commits is
skipped too, and a later one that aborts makes the earlier one visible again.

## Scope

The two notes on the share of the records that was dropped are left out. They count what the
functions here return.

## Main definitions

* `AbortedTransactions`, `AbortedIndex`
* `PartitionHistory`: the transactions on a partition, and what each index is told about them

## Main results

* `AbortedIndex.isAborted_pruneBelow`: pruning forgets nothing that can still be fetched
* `filterForReadCommitted_exact_iff`: when the two indexes agree
-/

namespace Relay

variable {π : Type*}

/-! ## One start offset for each producer -/

/-- The first offset of the aborted transaction of each producer. -/
structure AbortedTransactions (π : Type*) where
  aborted : Dict π ℤ := ∅

namespace AbortedTransactions

variable [DecidableEq π]

/-- `record_abort`. -/
def recordAbort (transactions : AbortedTransactions π) (producerId : π) (firstOffset : ℤ) :
    Except RelayError Unit × AbortedTransactions π :=
  if firstOffset < 0 then
    (.error (.invalid "an aborted transaction's first offset cannot be negative"), transactions)
  else (.ok (), ⟨transactions.aborted.set producerId firstOffset⟩)

/-- `_is_aborted`. -/
def isAborted (transactions : AbortedTransactions π) (producerId : π) (offset : ℤ) : Bool :=
  match transactions.aborted.get? producerId with
  | none => false
  | some start => offset ≥ start

/-- `filter_for_read_committed`, on records given by offset and producer. -/
def filterForReadCommitted (transactions : AbortedTransactions π) (records : List (ℤ × π)) :
    List (ℤ × π) :=
  records.filter fun record => !transactions.isAborted record.2 record.1

/-- `filter_for_read_uncommitted`. -/
def filterForReadUncommitted (_ : AbortedTransactions π) (records : List (ℤ × π)) :
    List (ℤ × π) :=
  records

/-- `dropped_count`. -/
def droppedCount (transactions : AbortedTransactions π) (records : List (ℤ × π)) : ℕ :=
  records.length - (transactions.filterForReadCommitted records).length

end AbortedTransactions

/-! ## A range of offsets for each transaction -/

/-- An aborted transaction. -/
structure AbortedTxn (π : Type*) where
  producerId : π
  firstOffset : ℤ
  lastOffset : ℤ

/-- `covers`. -/
def AbortedTxn.covers (txn : AbortedTxn π) (offset : ℤ) : Bool :=
  txn.firstOffset ≤ offset ∧ offset ≤ txn.lastOffset

/-- The aborted transactions of a segment. -/
structure AbortedIndex (π : Type*) where
  entries : List (AbortedTxn π) := []

namespace AbortedIndex

/-- `record`. -/
def record (index : AbortedIndex π) (txn : AbortedTxn π) : AbortedIndex π :=
  ⟨index.entries ++ [txn]⟩

/-- `is_aborted`. -/
def isAborted [DecidableEq π] (index : AbortedIndex π) (producerId : π) (offset : ℤ) : Bool :=
  index.entries.any fun e => e.producerId = producerId && e.covers offset

/-- `prune_below`: how many entries were dropped, and the index without them. -/
def pruneBelow (index : AbortedIndex π) (logStart : ℤ) : ℕ × AbortedIndex π :=
  let entries := index.entries.filter fun e => e.lastOffset ≥ logStart
  (index.entries.length - entries.length, ⟨entries⟩)

theorem isAborted_iff [DecidableEq π] {index : AbortedIndex π} {producerId : π} {offset : ℤ} :
    index.isAborted producerId offset = true ↔ ∃ e ∈ index.entries,
      e.producerId = producerId ∧ e.firstOffset ≤ offset ∧ offset ≤ e.lastOffset := by
  simp [isAborted, AbortedTxn.covers]

/-- Pruning changes nothing for the offsets that are still in the log. -/
theorem isAborted_pruneBelow [DecidableEq π] (index : AbortedIndex π) {logStart offset : ℤ}
    (hretained : logStart ≤ offset) (producerId : π) :
    (index.pruneBelow logStart).2.isAborted producerId offset =
      index.isAborted producerId offset := by
  rw [Bool.eq_iff_iff, isAborted_iff, isAborted_iff]
  simp only [pruneBelow, List.mem_filter, decide_eq_true_eq]
  constructor
  · rintro ⟨e, ⟨hmem, -⟩, hcovers⟩
    exact ⟨e, hmem, hcovers⟩
  · rintro ⟨e, hmem, hcovers⟩
    exact ⟨e, ⟨hmem, hretained.trans hcovers.2.2⟩, hcovers⟩

end AbortedIndex

/-! ## The history of a partition -/

/-- How a transaction ended. -/
inductive Outcome where
  | committed
  | aborted
  deriving DecidableEq

/-- A transaction that has ended, with the offsets of the records it wrote to the partition. -/
structure EndedTxn (π : Type*) where
  producerId : π
  offsets : List ℤ
  outcome : Outcome
  /-- It wrote something. -/
  ne_nil : offsets ≠ []
  /-- Offsets are handed out in order, from `0` on. -/
  sorted : offsets.Pairwise (· < ·)
  nonneg : ∀ offset ∈ offsets, 0 ≤ offset

namespace EndedTxn

/-- The offset of its first record. -/
def firstOffset (txn : EndedTxn π) : ℤ := txn.offsets.head txn.ne_nil

/-- The offset of its last record. -/
def lastOffset (txn : EndedTxn π) : ℤ := txn.offsets.getLast txn.ne_nil

/-- Its records, by offset and producer. -/
def records (txn : EndedTxn π) : List (ℤ × π) :=
  txn.offsets.map fun offset => (offset, txn.producerId)

theorem firstOffset_mem (txn : EndedTxn π) : txn.firstOffset ∈ txn.offsets := List.head_mem _

theorem firstOffset_le (txn : EndedTxn π) {offset : ℤ} (h : offset ∈ txn.offsets) :
    txn.firstOffset ≤ offset := by
  obtain ⟨producerId, offsets, outcome, hne, hsorted, hnonneg⟩ := txn
  cases offsets with
  | nil => cases h
  | cons first later =>
    rcases List.mem_cons.mp h with rfl | hlater
    · exact le_rfl
    · exact (List.rel_of_pairwise_cons hsorted hlater).le

theorem le_lastOffset (txn : EndedTxn π) {offset : ℤ} (h : offset ∈ txn.offsets) :
    offset ≤ txn.lastOffset := by
  have hsplit := List.dropLast_append_getLast txn.ne_nil
  have hsorted := txn.sorted
  rw [← hsplit] at h hsorted
  rcases List.mem_append.mp h with hearlier | hlast
  · exact ((List.pairwise_append.mp hsorted).2.2 offset hearlier _ List.mem_cons_self).le
  · exact (List.mem_singleton.mp hlast).le

theorem firstOffset_le_lastOffset (txn : EndedTxn π) : txn.firstOffset ≤ txn.lastOffset :=
  txn.le_lastOffset txn.firstOffset_mem

end EndedTxn

/-- The transactions on a partition in the order they ended. The transactions of one producer
follow each other; those of different producers interleave as they like. -/
structure PartitionHistory (π : Type*) where
  txns : List (EndedTxn π)
  successive : txns.Pairwise fun s t => s.producerId = t.producerId → s.lastOffset < t.firstOffset

namespace PartitionHistory

/-- The records of the partition. -/
def records (history : PartitionHistory π) : List (ℤ × π) := history.txns.flatMap EndedTxn.records

/-- The records that belong to an aborted transaction. -/
def abortedRecords (history : PartitionHistory π) : List (ℤ × π) :=
  (history.txns.filter fun txn => txn.outcome = .aborted).flatMap EndedTxn.records

/-- `record_abort` is called once for each aborted transaction, with its first offset. -/
def feedStart [DecidableEq π] (transactions : AbortedTransactions π) (txn : EndedTxn π) :
    AbortedTransactions π :=
  match txn.outcome with
  | .committed => transactions
  | .aborted => (transactions.recordAbort txn.producerId txn.firstOffset).2

/-- What the start offsets are after the whole history. -/
def abortedTransactions [DecidableEq π] (history : PartitionHistory π) : AbortedTransactions π :=
  history.txns.foldl feedStart {}

/-- `record` is called once for each aborted transaction, with its range. -/
def feedRange (index : AbortedIndex π) (txn : EndedTxn π) : AbortedIndex π :=
  match txn.outcome with
  | .committed => index
  | .aborted => index.record ⟨txn.producerId, txn.firstOffset, txn.lastOffset⟩

/-- What the ranges are after the whole history. -/
def abortedIndex (history : PartitionHistory π) : AbortedIndex π :=
  history.txns.foldl feedRange {}

/-- Every aborted transaction is the last its producer ran. -/
def AbortsLast (history : PartitionHistory π) : Prop :=
  ∀ s ∈ history.txns, s.outcome = .aborted → ∀ t ∈ history.txns,
    t.producerId = s.producerId → t.firstOffset ≤ s.firstOffset

theorem mem_records {history : PartitionHistory π} {offset : ℤ} {producerId : π} :
    (offset, producerId) ∈ history.records ↔
      ∃ txn ∈ history.txns, offset ∈ txn.offsets ∧ txn.producerId = producerId := by
  simp [records, EndedTxn.records]

theorem mem_abortedRecords {history : PartitionHistory π} {offset : ℤ} {producerId : π} :
    (offset, producerId) ∈ history.abortedRecords ↔ ∃ txn ∈ history.txns,
      txn.outcome = .aborted ∧ offset ∈ txn.offsets ∧ txn.producerId = producerId := by
  simp [abortedRecords, EndedTxn.records, and_assoc]

/-- Two transactions of one producer do not overlap. -/
theorem disjoint (history : PartitionHistory π) {s t : EndedTxn π} (hs : s ∈ history.txns)
    (ht : t ∈ history.txns) (hne : s ≠ t) (hproducer : s.producerId = t.producerId) :
    s.lastOffset < t.firstOffset ∨ t.lastOffset < s.firstOffset := by
  have hsymm : Std.Symm fun s t : EndedTxn π => s.producerId = t.producerId →
      s.lastOffset < t.firstOffset ∨ t.lastOffset < s.firstOffset :=
    ⟨fun s t h heq => (h heq.symm).symm⟩
  have hpair : history.txns.Pairwise fun s t => s.producerId = t.producerId →
      s.lastOffset < t.firstOffset ∨ t.lastOffset < s.firstOffset :=
    history.successive.imp fun h heq => Or.inl (h heq)
  exact hpair.forall hs ht hne hproducer

/-- A transaction is the only one of its producer whose range covers one of its offsets. -/
theorem eq_of_covers (history : PartitionHistory π) {s t : EndedTxn π} (hs : s ∈ history.txns)
    (ht : t ∈ history.txns) (hproducer : s.producerId = t.producerId) {offset : ℤ}
    (hoffset : offset ∈ t.offsets) (hfirst : s.firstOffset ≤ offset)
    (hlast : offset ≤ s.lastOffset) : s = t := by
  have hge := t.firstOffset_le hoffset
  have hle := t.le_lastOffset hoffset
  by_contra hne
  rcases history.disjoint hs ht hne hproducer with hlt | hlt <;> omega

/-- A record is aborted exactly when the transaction that wrote it is. -/
theorem mem_abortedRecords_iff (history : PartitionHistory π) {txn : EndedTxn π}
    (htxn : txn ∈ history.txns) {offset : ℤ} (hoffset : offset ∈ txn.offsets) :
    (offset, txn.producerId) ∈ history.abortedRecords ↔ txn.outcome = .aborted := by
  rw [mem_abortedRecords]
  constructor
  · rintro ⟨s, hs, habort, hmem, hproducer⟩
    have heq := history.eq_of_covers hs htxn hproducer hoffset (s.firstOffset_le hmem)
      (s.le_lastOffset hmem)
    exact heq ▸ habort
  · intro habort
    exact ⟨txn, htxn, habort, hoffset, rfl⟩

/-! ### What the ranges say -/

theorem entries_foldl_feedRange (index : AbortedIndex π) (txns : List (EndedTxn π)) :
    (txns.foldl feedRange index).entries = index.entries ++
      (txns.filter fun txn => txn.outcome = .aborted).map fun txn =>
        ⟨txn.producerId, txn.firstOffset, txn.lastOffset⟩ := by
  induction txns generalizing index with
  | nil => simp
  | cons txn txns ih =>
    rw [List.foldl_cons, ih]
    cases houtcome : txn.outcome <;> simp [feedRange, houtcome, AbortedIndex.record]

/-- The ranges tell exactly which records are aborted. -/
theorem isAborted_abortedIndex [DecidableEq π] (history : PartitionHistory π)
    {txn : EndedTxn π} (htxn : txn ∈ history.txns) {offset : ℤ} (hoffset : offset ∈ txn.offsets) :
    history.abortedIndex.isAborted txn.producerId offset = true ↔ txn.outcome = .aborted := by
  rw [AbortedIndex.isAborted_iff, abortedIndex, entries_foldl_feedRange]
  simp only [List.nil_append, List.mem_map, List.mem_filter, decide_eq_true_eq]
  constructor
  · rintro ⟨_, ⟨s, ⟨hs, habort⟩, rfl⟩, hproducer, hfirst, hlast⟩
    exact history.eq_of_covers hs htxn hproducer hoffset hfirst hlast ▸ habort
  · intro habort
    exact ⟨_, ⟨txn, ⟨htxn, habort⟩, rfl⟩, rfl, txn.firstOffset_le hoffset,
      txn.le_lastOffset hoffset⟩

/-! ### What the start offsets say -/

/-- The start offset held for a producer: none if it aborted nothing, else where the aborted
transaction that began last began. -/
def IsLastAbort (txns : List (EndedTxn π)) (producerId : π) : Option ℤ → Prop
  | none => ∀ txn ∈ txns, txn.outcome = .aborted → txn.producerId ≠ producerId
  | some start =>
    (∃ txn ∈ txns, txn.outcome = .aborted ∧ txn.producerId = producerId ∧
      txn.firstOffset = start) ∧
    ∀ txn ∈ txns, txn.outcome = .aborted → txn.producerId = producerId → txn.firstOffset ≤ start

theorem get?_feedStart [DecidableEq π] (transactions : AbortedTransactions π) (txn : EndedTxn π)
    (producerId : π) :
    (feedStart transactions txn).aborted.get? producerId =
      if txn.outcome = .aborted ∧ txn.producerId = producerId then some txn.firstOffset
      else transactions.aborted.get? producerId := by
  have hnonneg : ¬ txn.firstOffset < 0 := not_lt.mpr (txn.nonneg _ txn.firstOffset_mem)
  cases houtcome : txn.outcome with
  | committed => simp [feedStart, houtcome]
  | aborted =>
    simp [feedStart, houtcome, AbortedTransactions.recordAbort, hnonneg, Dict.get?_set, eq_comm]

theorem isLastAbort_foldl [DecidableEq π] {txns : List (EndedTxn π)}
    (h : txns.Pairwise fun s t => s.producerId = t.producerId → s.lastOffset < t.firstOffset)
    (producerId : π) :
    IsLastAbort txns producerId ((txns.foldl feedStart {}).aborted.get? producerId) := by
  induction txns using List.reverseRecOn with
  | nil =>
    intro txn hmem
    cases hmem
  | append_singleton txns txn ih =>
    obtain ⟨hpre, -, hbefore⟩ := List.pairwise_append.mp h
    have ih := ih hpre
    rw [List.foldl_append, List.foldl_cons, List.foldl_nil, get?_feedStart]
    split
    · next hnew =>
      -- this transaction began after every earlier one of the producer ended
      refine ⟨⟨txn, by simp, hnew.1, hnew.2, rfl⟩, fun s hs habort hproducer => ?_⟩
      rcases List.mem_append.mp hs with hs | hs
      · have hlt := hbefore s hs txn List.mem_cons_self (hproducer.trans hnew.2.symm)
        exact s.firstOffset_le_lastOffset.trans hlt.le
      · rw [List.mem_singleton.mp hs]
    · next hold =>
      have hmem : ∀ s ∈ txns ++ [txn], s.outcome = .aborted → s.producerId = producerId →
          s ∈ txns := by
        intro s hs habort hproducer
        rcases List.mem_append.mp hs with hs | hs
        · exact hs
        · obtain rfl := List.mem_singleton.mp hs
          exact absurd ⟨habort, hproducer⟩ hold
      cases hget : (txns.foldl feedStart {}).aborted.get? producerId with
      | none =>
        rw [hget] at ih
        exact fun s hs habort hproducer => ih s (hmem s hs habort hproducer) habort hproducer
      | some start =>
        rw [hget] at ih
        obtain ⟨⟨s, hs, hlast⟩, hmax⟩ := ih
        exact ⟨⟨s, List.mem_append_left _ hs, hlast⟩, fun s hs habort hproducer =>
          hmax s (hmem s hs habort hproducer) habort hproducer⟩

/-- **When the start offsets are enough.** They tell which records are aborted exactly when no
producer goes on after an abort. -/
theorem isAborted_iff_abortsLast [DecidableEq π] (history : PartitionHistory π) :
    (∀ txn ∈ history.txns, ∀ offset ∈ txn.offsets,
      (history.abortedTransactions.isAborted txn.producerId offset = true ↔
        txn.outcome = .aborted)) ↔ history.AbortsLast := by
  constructor
  · intro hexact s hs habort t ht hproducer
    have hlast := isLastAbort_foldl history.successive s.producerId
    have hs' := (hexact s hs _ s.firstOffset_mem).mpr habort
    have ht' := hexact t ht _ t.firstOffset_mem
    rw [hproducer] at ht'
    rw [AbortedTransactions.isAborted, abortedTransactions] at hs' ht'
    cases hget : (history.txns.foldl feedStart {}).aborted.get? s.producerId with
    | none => rw [hget] at hs'; cases hs'
    | some start =>
      simp only [hget, decide_eq_true_eq, ge_iff_le] at hs' ht'
      rw [hget] at hlast
      obtain ⟨-, hmax⟩ := hlast
      -- if `t` began after `s`, it would be skipped, so it would be aborted, and begin by `start`
      by_contra hlt
      have hle := hmax t ht (ht'.mp (hs'.trans (not_le.mp hlt).le)) hproducer
      exact hlt (hle.trans hs')
  · intro hlast txn htxn offset hoffset
    have hstart := isLastAbort_foldl history.successive txn.producerId
    rw [AbortedTransactions.isAborted, abortedTransactions]
    cases hget : (history.txns.foldl feedStart {}).aborted.get? txn.producerId with
    | none =>
      rw [hget] at hstart
      exact iff_of_false Bool.false_ne_true fun habort => hstart txn htxn habort rfl
    | some start =>
      rw [hget] at hstart
      obtain ⟨⟨s, hs, habort, hproducer, rfl⟩, hmax⟩ := hstart
      rw [decide_eq_true_eq, ge_iff_le]
      constructor
      · intro hle
        by_contra hcommit
        have hne : s ≠ txn := fun heq => hcommit (heq ▸ habort)
        have hbegan := hlast s hs habort txn htxn hproducer.symm
        have hbefore := txn.le_lastOffset hoffset
        have hs' := s.firstOffset_le_lastOffset
        rcases history.disjoint hs htxn hne hproducer with hlt | hlt <;> omega
      · intro htxn'
        exact (hlast txn htxn htxn' s hs hproducer).trans (txn.firstOffset_le hoffset)

end PartitionHistory

/-- A test drops, of every fetch, exactly what it should, if and only if it tells of every record
whether it should be dropped. -/
theorem filter_not_eq_iff {α : Type*} {records : List α} {p : α → Bool} {Q : α → Prop}
    [DecidablePred Q] :
    (∀ fetched ⊆ records, (fetched.filter fun r => !p r) = fetched.filter fun r => ¬ Q r) ↔
      ∀ r ∈ records, (p r = true ↔ Q r) := by
  constructor
  · intro h r hr
    have hone := h [r] (by simpa using hr)
    cases hp : p r <;> by_cases hq : Q r <;> simp [hp, hq] at hone ⊢
  · intro h fetched hfetched
    refine List.filter_congr fun r hr => ?_
    have hiff := h r (hfetched hr)
    cases hp : p r <;> simp [hp] at hiff ⊢ <;> exact hiff

/-- **When the read-committed filter drops exactly the aborted records.** The ranges always tell
which records of the history are aborted. The filter keeps, of every fetch, exactly the records
that belong to no aborted transaction, if and only if every aborted transaction is the last its
producer ran. -/
theorem filterForReadCommitted_exact_iff [DecidableEq π] (history : PartitionHistory π) :
    (∀ record ∈ history.records,
      (history.abortedIndex.isAborted record.2 record.1 = true ↔
        record ∈ history.abortedRecords)) ∧
    ((∀ fetched ⊆ history.records,
      history.abortedTransactions.filterForReadCommitted fetched =
        fetched.filter fun record => record ∉ history.abortedRecords) ↔ history.AbortsLast) := by
  constructor
  · rintro ⟨offset, producerId⟩ hrecord
    obtain ⟨txn, htxn, hoffset, rfl⟩ := PartitionHistory.mem_records.mp hrecord
    rw [history.isAborted_abortedIndex htxn hoffset, history.mem_abortedRecords_iff htxn hoffset]
  · rw [← history.isAborted_iff_abortsLast]
    refine filter_not_eq_iff.trans ⟨fun h txn htxn offset hoffset => ?_, ?_⟩
    · rw [← history.mem_abortedRecords_iff htxn hoffset]
      exact h (offset, txn.producerId)
        (PartitionHistory.mem_records.mpr ⟨txn, htxn, hoffset, rfl⟩)
    · rintro h ⟨offset, producerId⟩ hrecord
      obtain ⟨txn, htxn, hoffset, rfl⟩ := PartitionHistory.mem_records.mp hrecord
      rw [history.mem_abortedRecords_iff htxn hoffset]
      exact h txn htxn offset hoffset

/-- A producer aborts one transaction and commits the next. -/
def abortThenCommit : PartitionHistory String where
  txns := [⟨"p", [10, 11], .aborted, by decide, by decide, by decide⟩,
    ⟨"p", [20], .committed, by decide, by decide, by decide⟩]
  successive := by decide

/-- The record it committed is dropped too. -/
theorem filterForReadCommitted_drops_committed :
    ¬ ∀ fetched ⊆ abortThenCommit.records,
      abortThenCommit.abortedTransactions.filterForReadCommitted fetched =
        fetched.filter fun record => record ∉ abortThenCommit.abortedRecords :=
  fun h => absurd (h abortThenCommit.records (List.Subset.refl _)) (by decide)

end Relay
