import Mathlib.Data.Int.Order.Basic
import Mathlib.Data.Prod.Lex
import Relay.Errors
import Relay.Lib.Causal

/-!
# Last-write-wins registers

A register keeps a value with the timestamp and the node of its write, and a merge keeps the one of
higher rank, where a rank is a timestamp and then a node. Two registers that merge each other end
alike as soon as a rank tells the register: then both hold the one of higher rank, whichever of
them merges first (`merge_comm_of_rank`).

Ranks tell registers apart only if writes have ranks of their own. A replica may write twice at one
timestamp, since `write` refuses older timestamps only, and both writes then have one rank. A write
of node `0` at timestamp `0` has the rank of a fresh register. Apart from these, registers converge
(`lww_converges`).

## Scope

The test for writes that one of two registers would drop is left out, and so is the report made from
it. Neither changes a register.

## Main definitions

* `LwwRegister`, with `write` and `merge`
* `lww`: the register at every node, as a replicated object
* `DistinctRanks`: no two different writes have one rank

## Main results

* `lww_converges`
-/

namespace Relay

/-- A value with the timestamp and the node of its write. -/
structure LwwRegister where
  value : String := ""
  timestamp : ℤ := 0
  nodeId : ℤ := 0
  deriving DecidableEq

namespace LwwRegister

/-- The pair that is compared, timestamp first. -/
def rank (register : LwwRegister) : ℤ ×ₗ ℤ := toLex (register.timestamp, register.nodeId)

/-- `write`. -/
def write (register : LwwRegister) (value : String) (timestamp nodeId : ℤ) :
    Except RelayError Unit × LwwRegister :=
  if timestamp < register.timestamp then
    (.error (.invalid "a write cannot carry a timestamp older than the register's"), register)
  else (.ok (), ⟨value, timestamp, nodeId⟩)

/-- `merge`. -/
def merge (register other : LwwRegister) : Bool × LwwRegister :=
  let mine := register.rank
  let theirs := other.rank
  if theirs > mine then (true, ⟨other.value, other.timestamp, other.nodeId⟩)
  else (false, register)

theorem rank_eq_iff {a b : LwwRegister} :
    a.rank = b.rank ↔ a.timestamp = b.timestamp ∧ a.nodeId = b.nodeId :=
  Prod.mk_inj

theorem merge_snd (register other : LwwRegister) :
    (register.merge other).2 = if register.rank < other.rank then other else register := by
  simp only [merge]
  split_ifs <;> rfl

/-- Where a rank tells the register, it does not matter which of two merges the other. -/
theorem merge_comm_of_rank {a b : LwwRegister} (h : a.rank = b.rank → a = b) :
    (a.merge b).2 = (b.merge a).2 := by
  rw [merge_snd, merge_snd]
  rcases lt_trichotomy a.rank b.rank with hlt | heq | hgt
  · rw [if_pos hlt, if_neg hlt.not_gt]
  · rw [h heq]
  · rw [if_neg hgt.not_gt, if_pos hgt]

/-- Merging the result of a merge takes over that result. -/
theorem merge_merge_of_rank {a b : LwwRegister} (h : a.rank = b.rank → a = b) :
    (b.merge (a.merge b).2).2 = (a.merge b).2 := by
  rw [merge_snd a b]
  split_ifs with hlt
  · rw [merge_snd, if_neg (lt_irrefl _)]
  · rw [merge_snd]
    split_ifs with hgt
    · rfl
    · exact (h (le_antisymm (not_lt.mp hgt) (not_lt.mp hlt))).symm

end LwwRegister

/-! ## Runs -/

/-- What a replica writes. The node is its own. -/
structure LwwWrite where
  value : String
  timestamp : ℤ
  deriving DecidableEq

/-- What `write` and `merge` return. -/
inductive LwwAnswer where
  | written (result : Except RelayError Unit)
  | merged (taken : Bool)

/-- A register at every node. -/
def lww : Replicated ℤ LwwRegister LwwWrite LwwAnswer where
  init _ := {}
  update nodeId register op :=
    let result := register.write op.value op.timestamp nodeId
    (.written result.1, result.2)
  merge _ register other :=
    let result := register.merge other
    (.merged result.1, result.2)

/-- The event is a write that was accepted. -/
def Writes (acts : List (Action ℤ LwwWrite)) (a : ℕ) (nodeId : ℤ) (op : LwwWrite) : Prop :=
  (lww.events acts)[a]? = some (.update nodeId op, .written (.ok ()))

/-- No two different writes have one rank, and none has the rank of a fresh register. -/
structure DistinctRanks (acts : List (Action ℤ LwwWrite)) : Prop where
  /-- The accepted writes of a node at one timestamp all write the same value. -/
  once : ∀ a b nodeId op op', Writes acts a nodeId op → Writes acts b nodeId op' →
    op.timestamp = op'.timestamp → op.value = op'.value
  /-- At timestamp `0`, node `0` writes only what a fresh register holds. -/
  fresh : ∀ a op, Writes acts a 0 op → op.timestamp = 0 → op.value = ""

/-- The register is fresh, or holds a write among the events `H`. -/
def HoldsWrite (acts : List (Action ℤ LwwWrite)) (_ : ℤ) (H : Finset ℕ)
    (register : LwwRegister) : Prop :=
  register = {} ∨ ∃ a ∈ H, ∃ nodeId op, Writes acts a nodeId op ∧
    register = ⟨op.value, op.timestamp, nodeId⟩

theorem Writes.append_singleton {acts : List (Action ℤ LwwWrite)} {a : ℕ} {nodeId : ℤ}
    {op : LwwWrite} (h : Writes acts a nodeId op) (x : Action ℤ LwwWrite) :
    Writes (acts ++ [x]) a nodeId op := by
  rw [Writes, lww.events_append_singleton]
  exact getElem?_append_singleton_eq_some.mpr (Or.inl h)

theorem HoldsWrite.extend {acts : List (Action ℤ LwwWrite)} {i j : ℤ} {H H' : Finset ℕ}
    {register : LwwRegister} (h : HoldsWrite acts i H register) (hH : H ⊆ H')
    (x : Action ℤ LwwWrite) : HoldsWrite (acts ++ [x]) j H' register := by
  rcases h with h | ⟨a, ha, nodeId, op, hwrites, h⟩
  · exact Or.inl h
  · exact Or.inr ⟨a, hH ha, nodeId, op, hwrites.append_singleton x, h⟩

/-- A replica holds a write that it knows of. -/
theorem holdsWrite_run (acts : List (Action ℤ LwwWrite)) (i : ℤ) :
    HoldsWrite acts i (causalHistory acts i) ((lww.run acts).replica i) := by
  refine (Replicated.run_induction (O := lww) (P := HoldsWrite) ?_ ?_ ?_ ?_ acts).1 i
  · intro acts i
    exact Or.inl rfl
  · intro acts x i H register _ h
    exact h.extend subset_rfl x
  · intro acts i op h
    by_cases haccepted : op.timestamp < ((lww.run acts).replica i).timestamp
    · have hsame : (lww.update i ((lww.run acts).replica i) op).2 = (lww.run acts).replica i := by
        show (LwwRegister.write _ _ _ _).2 = _
        rw [LwwRegister.write, if_pos haccepted]
      rw [hsame]
      exact h.extend (Finset.subset_insert _ _) _
    · refine Or.inr ⟨acts.length, Finset.mem_insert_self _ _, i, op, ?_, ?_⟩
      · rw [Writes, lww.getElem?_events_length]
        show some (_, LwwAnswer.written (LwwRegister.write _ _ _ _).1) = _
        rw [LwwRegister.write, if_neg haccepted]
      · show (LwwRegister.write _ _ _ _).2 = _
        rw [LwwRegister.write, if_neg haccepted]
  · intro acts i source j other _ h hother
    show HoldsWrite _ i _ (LwwRegister.merge _ _).2
    rw [LwwRegister.merge_snd]
    split_ifs
    · exact hother.extend
        (Finset.subset_union_right.trans (Finset.subset_insert _ _)) _
    · exact h.extend (Finset.subset_union_left.trans (Finset.subset_insert _ _)) _

/-- With distinct ranks, a rank tells the register of a replica. -/
theorem DistinctRanks.eq_of_rank {acts : List (Action ℤ LwwWrite)} (h : DistinctRanks acts)
    (i j : ℤ) (hrank : ((lww.run acts).replica i).rank = ((lww.run acts).replica j).rank) :
    (lww.run acts).replica i = (lww.run acts).replica j := by
  have hfresh : ∀ {a nodeId op}, Writes acts a nodeId op →
      LwwRegister.rank ⟨op.value, op.timestamp, nodeId⟩ = LwwRegister.rank {} →
      (⟨op.value, op.timestamp, nodeId⟩ : LwwRegister) = {} := by
    intro a nodeId op hwrites hrank
    obtain ⟨htimestamp, rfl⟩ : op.timestamp = 0 ∧ nodeId = 0 := LwwRegister.rank_eq_iff.mp hrank
    rw [h.fresh a op hwrites htimestamp, htimestamp]
  rcases holdsWrite_run acts i with hi | ⟨a, -, m, op, hwrites, hi⟩
  · rcases holdsWrite_run acts j with hj | ⟨b, -, n, op', hwrites', hj⟩
    · rw [hi, hj]
    · rw [hi, hj] at hrank ⊢
      exact (hfresh hwrites' hrank.symm).symm
  · rcases holdsWrite_run acts j with hj | ⟨b, -, n, op', hwrites', hj⟩
    · rw [hi, hj] at hrank ⊢
      exact hfresh hwrites hrank
    · rw [hi, hj] at hrank ⊢
      obtain ⟨htimestamp, rfl⟩ : op.timestamp = op'.timestamp ∧ m = n :=
        LwwRegister.rank_eq_iff.mp hrank
      rw [h.once a b m op op' hwrites hwrites' htimestamp, htimestamp]

/-- **Registers converge.** After every run of writes and merges in which no two different writes
have one rank, any two replicas that merge each other's states hold the same register: when each
merges the state the other had, and also when one of them merges first and the other then merges
the result. -/
theorem lww_converges (acts : List (Action ℤ LwwWrite)) (hranks : DistinctRanks acts) (i j : ℤ) :
    (((lww.run acts).replica i).merge ((lww.run acts).replica j)).2 =
        (((lww.run acts).replica j).merge ((lww.run acts).replica i)).2 ∧
      (((lww.run acts).replica j).merge
          (((lww.run acts).replica i).merge ((lww.run acts).replica j)).2).2 =
        (((lww.run acts).replica i).merge ((lww.run acts).replica j)).2 ∧
      (((lww.run acts).replica i).merge
          (((lww.run acts).replica j).merge ((lww.run acts).replica i)).2).2 =
        (((lww.run acts).replica j).merge ((lww.run acts).replica i)).2 :=
  ⟨LwwRegister.merge_comm_of_rank (hranks.eq_of_rank i j),
    LwwRegister.merge_merge_of_rank (hranks.eq_of_rank i j),
    LwwRegister.merge_merge_of_rank (hranks.eq_of_rank j i)⟩

/-- Node `1` writes twice at timestamp `5`, and node `2` merges the first of the writes. -/
def rewritten : List (Action ℤ LwwWrite) :=
  [.update 1 ⟨"a", 5⟩, .merge 2 0, .update 1 ⟨"b", 5⟩]

/-- The two nodes hold different values at one rank, and no merge changes that. -/
theorem not_converges_rewritten :
    ¬ ∀ i j, (((lww.run rewritten).replica i).merge ((lww.run rewritten).replica j)).2 =
      (((lww.run rewritten).replica j).merge ((lww.run rewritten).replica i)).2 := by
  intro hconverges
  have hrewritten := hconverges 1 2
  have hone : (((lww.run rewritten).replica 1).merge ((lww.run rewritten).replica 2)).2 =
      ⟨"b", 5, 1⟩ := by decide
  have htwo : (((lww.run rewritten).replica 2).merge ((lww.run rewritten).replica 1)).2 =
      ⟨"a", 5, 1⟩ := by decide
  rw [hone, htwo] at hrewritten
  exact absurd hrewritten (by decide)

/-- Two nodes write at one timestamp, and node `3` has the first of the writes. -/
def contested : List (Action ℤ LwwWrite) :=
  [.update 1 ⟨"a", 5⟩, .merge 3 0, .update 2 ⟨"b", 5⟩]

theorem distinctRanks_contested : DistinctRanks contested := by
  have hwrites : ∀ a nodeId op, Writes contested a nodeId op →
      nodeId = 1 ∧ op = ⟨"a", 5⟩ ∨ nodeId = 2 ∧ op = ⟨"b", 5⟩ := by
    intro a nodeId op h
    match a, h with
    | 0, h => exact Or.inl (by cases h; exact ⟨rfl, rfl⟩)
    | 2, h => exact Or.inr (by cases h; exact ⟨rfl, rfl⟩)
  constructor
  · intro a b nodeId op op' h h' _
    rcases hwrites a nodeId op h with ⟨rfl, rfl⟩ | ⟨rfl, rfl⟩
    · rcases hwrites b 1 op' h' with ⟨-, rfl⟩ | ⟨hnode, -⟩
      · rfl
      · exact absurd hnode (by decide)
    · rcases hwrites b 2 op' h' with ⟨hnode, -⟩ | ⟨-, rfl⟩
      · exact absurd hnode (by decide)
      · rfl
  · intro a op h _
    rcases hwrites a 0 op h with ⟨hnode, -⟩ | ⟨hnode, -⟩
    · exact absurd hnode (by decide)
    · exact absurd hnode (by decide)

/-- Nodes `2` and `3` end with the write of the higher node. -/
theorem lww_converges_contested :
    (((lww.run contested).replica 3).merge ((lww.run contested).replica 2)).2 = ⟨"b", 5, 2⟩ ∧
      (((lww.run contested).replica 2).merge ((lww.run contested).replica 3)).2 = ⟨"b", 5, 2⟩ := by
  have hthree : (((lww.run contested).replica 3).merge ((lww.run contested).replica 2)).2 =
      ⟨"b", 5, 2⟩ := by decide
  exact ⟨hthree, (lww_converges contested distinctRanks_contested 3 2).1 ▸ hthree⟩

end Relay
