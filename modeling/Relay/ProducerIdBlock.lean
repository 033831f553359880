import Mathlib.Algebra.Order.Ring.Int
import Mathlib.Tactic.Linarith
import Relay.Errors
import Relay.Lib.Machine

/-!
# Blocks of producer ids

A broker hands out producer ids from a block that the controller gave it, and asks for another
block when the ids run out. An id that is handed out twice would make the broker confuse the
sequence numbers of two producers, so a new block is refused if it starts before the end of the
last one.

Only the last block's end is remembered, and the size of a new block is not looked at, although a
block of no or negative size cannot be made in the first place. A block of negative size ends
before it starts, possibly below ids that are gone, and the next block may then start there. As long
as no block ends below the one it replaces (`EndsNoLower`), ids only increase.

## Scope

The report on the identifiers that are left is left out.

## Main definitions

* `ProducerIdBlock`, with `new`, `allocate` and `refill`
* `ids`: the ids that a run hands out

## Main results

* `pairwise_lt_ids_of_endsNoLower`: ids increase if no block ends below the one it replaces, and any
  refill with one that does can lead to an id that is handed out again
-/

namespace Relay

/-- A block of ids, and the next id to hand out. -/
structure ProducerIdBlock where
  blockStart : ℤ
  blockSize : ℤ
  nextId : ℤ
  deriving DecidableEq

namespace ProducerIdBlock

/-- A new block. A negative `nextId` stands for the start of the block. -/
def new (blockStart blockSize : ℤ) (nextId : ℤ := -1) : Except RelayError ProducerIdBlock :=
  if blockSize < 1 then .error (.invalid "a block must have positive size")
  else .ok ⟨blockStart, blockSize, if nextId < 0 then blockStart else nextId⟩

/-- `block_end`. -/
def blockEnd (block : ProducerIdBlock) : ℤ := block.blockStart + block.blockSize

/-- `remaining`. -/
def remaining (block : ProducerIdBlock) : ℤ := block.blockEnd - block.nextId

/-- `allocate`. -/
def allocate (block : ProducerIdBlock) : Except RelayError ℤ × ProducerIdBlock :=
  if block.blockEnd ≤ block.nextId then
    (.error (.invalid ("the block is exhausted; refill before handing out an "
      ++ "id it does not own, which would collide with the broker owning the next block")), block)
  else (.ok block.nextId, { block with nextId := block.nextId + 1 })

/-- A block that is not used up gives its next identifier. -/
theorem allocate_of_lt {block : ProducerIdBlock} (h : block.nextId < block.blockEnd) :
    block.allocate = (.ok block.nextId, { block with nextId := block.nextId + 1 }) := by
  rw [allocate, if_neg (not_le.mpr h)]

/-- `refill`. -/
def refill (block : ProducerIdBlock) (newStart newSize : ℤ) :
    Except RelayError String × ProducerIdBlock :=
  if newStart < block.blockEnd then
    (.error (.invalid (s!"refill start {newStart} overlaps the last block "
      ++ s!"ending {block.blockEnd}; overlapping ranges break cluster-wide uniqueness")), block)
  else
    let refilled : ProducerIdBlock := ⟨newStart, newSize, newStart⟩
    (.ok s!"refilled block [{newStart}, {refilled.blockEnd})", refilled)

/-- A block beyond the old one is accepted. -/
theorem refill_of_le {block : ProducerIdBlock} {newStart : ℤ} (newSize : ℤ)
    (h : block.blockEnd ≤ newStart) :
    ∃ note, block.refill newStart newSize = (.ok note, ⟨newStart, newSize, newStart⟩) :=
  ⟨_, by rw [refill, if_neg (not_lt.mpr h)]⟩

end ProducerIdBlock

/-! ## Runs -/

/-- A call to a block. -/
inductive BlockCall where
  | allocate
  | refill (newStart newSize : ℤ)

/-- What a call answers. -/
inductive BlockAnswer where
  | allocated (answer : Except RelayError ℤ)
  | refilled (answer : Except RelayError String)

/-- The block as a component. -/
def idBlock : Machine ProducerIdBlock BlockCall BlockAnswer where
  step block
    | .allocate => block.allocate.map .allocated id
    | .refill newStart newSize => (block.refill newStart newSize).map .refilled id

/-- The id that a call was given, if it was given one. -/
def idOfEvent : BlockCall × BlockAnswer → Option ℤ
  | (_, .allocated (.ok id)) => some id
  | _ => none

/-- The ids that a run hands out, in order. -/
def ids (block : ProducerIdBlock) (calls : List BlockCall) : List ℤ :=
  (idBlock.trace block calls).filterMap idOfEvent

/-- A refill that is accepted does not end below the block it replaces. -/
def ProducerIdBlock.EndsNoLower (block : ProducerIdBlock) : BlockCall → Prop
  | .refill newStart newSize =>
    block.blockEnd ≤ newStart → block.blockEnd ≤ newStart + newSize
  | .allocate => True

/-- What a call does: nothing, hand out the next id, or begin another block. -/
inductive BlockStep (block : ProducerIdBlock) : BlockCall → BlockAnswer → ProducerIdBlock → Prop
  | idle {call : BlockCall} {answer : BlockAnswer} (event : idOfEvent (call, answer) = none) :
      BlockStep block call answer block
  | allocated (lt : block.nextId < block.blockEnd) :
      BlockStep block .allocate (.allocated (.ok block.nextId))
        { block with nextId := block.nextId + 1 }
  | refilled {newStart newSize : ℤ} {note : String} (le : block.blockEnd ≤ newStart) :
      BlockStep block (.refill newStart newSize) (.refilled (.ok note))
        ⟨newStart, newSize, newStart⟩

theorem blockStep_step (block : ProducerIdBlock) (call : BlockCall) :
    BlockStep block call (idBlock.step block call).1 (idBlock.step block call).2 := by
  cases call with
  | allocate =>
    simp only [idBlock, ProducerIdBlock.allocate]
    split
    · exact .idle rfl
    · next hleft => exact .allocated (not_le.mp hleft)
  | refill newStart newSize =>
    simp only [idBlock, ProducerIdBlock.refill]
    split
    · exact .idle rfl
    · next hstart => exact .refilled (not_lt.mp hstart)

theorem ids_allocate {block : ProducerIdBlock} (h : block.nextId < block.blockEnd) :
    ids block [.allocate] = [block.nextId] := by
  show [(BlockCall.allocate, (block.allocate.map BlockAnswer.allocated id).1)].filterMap _ = _
  rw [ProducerIdBlock.allocate_of_lt h]
  rfl

theorem ids_refill_cons {block : ProducerIdBlock} {newStart newSize : ℤ} {calls : List BlockCall}
    (h : block.blockEnd ≤ newStart) :
    ids block (.refill newStart newSize :: calls) = ids ⟨newStart, newSize, newStart⟩ calls := by
  obtain ⟨note, hrefill⟩ := ProducerIdBlock.refill_of_le newSize h
  have hstep : idBlock.step block (.refill newStart newSize) =
      (.refilled (.ok note), ⟨newStart, newSize, newStart⟩) := by
    show (block.refill newStart newSize).map BlockAnswer.refilled id = _
    rw [hrefill]
    rfl
  rw [ids, Machine.trace_cons, hstep]
  rfl

/-- Ids were handed out in increasing order, and none of them is still to come: neither from this
block nor from one that starts where it ends. -/
structure Issued (issued : List ℤ) (block : ProducerIdBlock) : Prop where
  lt_nextId : ∀ id ∈ issued, id < block.nextId
  lt_blockEnd : ∀ id ∈ issued, id < block.blockEnd
  pairwise : issued.Pairwise (· < ·)

/-- A call issues the next identifier or none, and a new block starts past all of them. -/
theorem Issued.step {past : List (BlockCall × BlockAnswer)} {block block' : ProducerIdBlock}
    {call : BlockCall} {answer : BlockAnswer} (h : Issued (past.filterMap idOfEvent) block)
    (hcall : block.EndsNoLower call) (hstep : BlockStep block call answer block') :
    Issued ((past ++ [(call, answer)]).filterMap idOfEvent) block' := by
  rw [List.filterMap_append]
  cases hstep with
  | idle event => rwa [List.filterMap_cons_none event, List.filterMap_nil, List.append_nil]
  | allocated lt =>
    show Issued (_ ++ [block.nextId]) _
    refine ⟨?_, ?_, pairwise_append_singleton.mpr ⟨h.pairwise, h.lt_nextId⟩⟩
    · exact forall_mem_append_singleton.mpr
        ⟨fun id hid => (h.lt_nextId id hid).trans (lt_add_one _), lt_add_one _⟩
    · exact forall_mem_append_singleton.mpr ⟨h.lt_blockEnd, lt⟩
  | refilled le =>
    show Issued (_ ++ []) _
    rw [List.append_nil]
    exact ⟨fun id hid => (h.lt_blockEnd id hid).trans_le le,
      fun id hid => (h.lt_blockEnd id hid).trans_le (hcall le), h.pairwise⟩

theorem issued_run {block : ProducerIdBlock} {calls : List BlockCall}
    (h : idBlock.Guarded ProducerIdBlock.EndsNoLower block calls) :
    Issued (ids block calls) (idBlock.final block calls) :=
  Machine.trace_induction (P := fun past block => Issued (past.filterMap idOfEvent) block)
    ⟨by simp, by simp, List.Pairwise.nil⟩
    (fun _ block call hissued hcall => hissued.step hcall (blockStep_step block call)) h

/-! ## A block that ends lower -/

theorem ids_append (block : ProducerIdBlock) (calls calls' : List BlockCall) :
    ids block (calls ++ calls') = ids block calls ++ ids (idBlock.final block calls) calls' := by
  rw [ids, Machine.trace_append, List.filterMap_append, ids, ids]

theorem guarded_replicate_allocate (block : ProducerIdBlock) (k : ℕ) :
    idBlock.Guarded ProducerIdBlock.EndsNoLower block (List.replicate k .allocate) := by
  induction k generalizing block with
  | zero => trivial
  | succ k ih => exact ⟨trivial, ih _⟩

/-- Allocating as long as there are ids. -/
theorem final_replicate_allocate {block : ProducerIdBlock} {k : ℕ}
    (h : block.nextId + k ≤ block.blockEnd) :
    idBlock.final block (List.replicate k .allocate) =
      { block with nextId := block.nextId + k } := by
  induction k with
  | zero => simp
  | succ k ih =>
    push_cast at h
    have hleft : ({ block with nextId := block.nextId + k } : ProducerIdBlock).nextId <
        block.blockEnd := by
      show block.nextId + k < block.blockEnd
      omega
    rw [List.replicate_succ', Machine.final_append, ih (by omega)]
    show (ProducerIdBlock.allocate _).2 = _
    rw [ProducerIdBlock.allocate_of_lt hleft]
    push_cast
    rw [add_assoc]

/-- A block with ids left, used up, replaced by one that ends lower and then by one that starts
where that ends: an id that was handed out comes again, or one below it. -/
theorem not_pairwise_lt_ids_of_lt {block : ProducerIdBlock} {newStart newSize : ℤ}
    (hleft : block.nextId < block.blockEnd) (haccepted : block.blockEnd ≤ newStart)
    (hlower : newStart + newSize < block.blockEnd) :
    ¬ (ids block (List.replicate block.remaining.toNat .allocate ++
      .refill newStart newSize :: [.refill (newStart + newSize) 1, .allocate])).Pairwise
        (· < ·) := by
  obtain ⟨k, hk⟩ : ∃ k : ℕ, block.remaining = k + 1 :=
    ⟨(block.remaining - 1).toNat, by rw [ProducerIdBlock.remaining]; omega⟩
  have hend : block.nextId + (k + 1) = block.blockEnd := by
    rw [← hk, ProducerIdBlock.remaining]
    omega
  have hcount : block.remaining.toNat = k + 1 := by omega
  rw [hcount]
  have hlast : block.nextId + k ∈ ids block (List.replicate (k + 1) .allocate) := by
    rw [List.replicate_succ', ids_append, final_replicate_allocate (by omega),
      ids_allocate (show block.nextId + k < block.blockEnd by omega)]
    exact List.mem_append_right _ (List.mem_singleton_self _)
  have hnext : ids (idBlock.final block (List.replicate (k + 1) .allocate))
      (.refill newStart newSize :: [.refill (newStart + newSize) 1, .allocate]) =
        [newStart + newSize] := by
    have hused : ({ block with nextId := block.nextId + (k + 1 : ℕ) } : ProducerIdBlock).blockEnd ≤
      newStart := haccepted
    have hlowered : (⟨newStart, newSize, newStart⟩ : ProducerIdBlock).blockEnd ≤
      newStart + newSize := le_rfl
    rw [final_replicate_allocate (by push_cast; omega), ids_refill_cons hused,
      ids_refill_cons hlowered]
    exact ids_allocate (lt_add_one _)
  intro h
  rw [ids_append, hnext] at h
  have hlt := (pairwise_append_singleton.mp h).2 _ hlast
  omega

/-- **When producer ids are never issued twice.** In every run in which no accepted refill ends
below the block it replaces, the ids handed out increase, in every state along the way. And any
refill that does end lower than a block which has ids left can stand in a run that hands out an id
not above one handed out before, although all its other calls are as they should be. -/
theorem pairwise_lt_ids_of_endsNoLower (block : ProducerIdBlock) :
    (∀ calls, idBlock.Guarded ProducerIdBlock.EndsNoLower block calls →
        ∀ past, past <+: calls → (ids block past).Pairwise (· < ·)) ∧
      ∀ newStart newSize, block.nextId < block.blockEnd →
        ¬ block.EndsNoLower (.refill newStart newSize) →
          ∃ before after, idBlock.Guarded ProducerIdBlock.EndsNoLower block before ∧
            idBlock.Guarded ProducerIdBlock.EndsNoLower ⟨newStart, newSize, newStart⟩ after ∧
            ¬ (ids block (before ++ .refill newStart newSize :: after)).Pairwise (· < ·) := by
  refine ⟨fun calls hcalls past hpast => ?_, fun newStart newSize hleft hlower => ?_⟩
  · obtain ⟨rest, rfl⟩ := hpast
    exact (issued_run ((idBlock.guarded_append _ block past rest).mp hcalls).1).pairwise
  · simp only [ProducerIdBlock.EndsNoLower, Classical.not_imp, not_le] at hlower
    refine ⟨List.replicate block.remaining.toNat .allocate,
      [.refill (newStart + newSize) 1, .allocate], guarded_replicate_allocate block _,
      ⟨fun _ => (lt_add_one _).le, trivial, trivial⟩,
      not_pairwise_lt_ids_of_lt hleft hlower.1 hlower.2⟩

/-- Two blocks, one after the other. -/
theorem pairwise_lt_ids_two_blocks :
    ids ⟨0, 2, 0⟩ [.allocate, .allocate, .allocate, .refill 5 1, .allocate] = [0, 1, 5] ∧
      [0, 1, 5].Pairwise ((· < ·) : ℤ → ℤ → Prop) := by
  have h := (pairwise_lt_ids_of_endsNoLower ⟨0, 2, 0⟩).1
    [.allocate, .allocate, .allocate, .refill 5 1, .allocate]
    ⟨trivial, trivial, trivial, fun _ => by decide, trivial, trivial⟩ _ List.prefix_rfl
  exact ⟨rfl, h⟩

/-- A refill that takes the whole block back: the controller's next block may be the first one
again. -/
theorem refill_issues_twice :
    ProducerIdBlock.new 0 10 = .ok ⟨0, 10, 0⟩ ∧
      ids ⟨0, 10, 0⟩ [.allocate, .refill 10 (-10), .refill 0 10, .allocate] = [0, 0] ∧
      ¬ (ids ⟨0, 10, 0⟩
        [.allocate, .refill 10 (-10), .refill 0 10, .allocate]).Pairwise (· < ·) := by
  have hids : ids ⟨0, 10, 0⟩ [.allocate, .refill 10 (-10), .refill 0 10, .allocate] = [0, 0] := rfl
  refine ⟨rfl, hids, ?_⟩
  rw [hids]
  simp

end Relay
