import Mathlib.Algebra.Order.Ring.Int
import Mathlib.Data.Prod.Lex
import Mathlib.Data.String.Basic
import Relay.Errors
import Relay.Lib.BinaryHeap
import Relay.Lib.Machine

/-!
# The priority queue

A queue of items with priorities which always gives out the smallest. It keeps the pairs of a
priority and an item in a binary heap, and pairs are compared as tuples are: by their priorities,
and by their items where the priorities are equal. So items of one priority leave in the order of
their names, whenever they came.

A queue that is empty refuses to give anything out and stays as it is.

## Scope

The report of the size is left out. Moving up and down is in the library of heaps.

## Main definitions

* `PriorityQueue`, with `push`, `peek` and `pop`
* `Outstanding`: the pairs that have been pushed and not yet popped, each as often as it is

## Main results

* `priorityQueue_serves`: after any calls, the queue is a heap of the outstanding pairs, and what it
  gives out is the least of them
-/

namespace Relay

/-- A priority queue. The pairs of a heap are compared as tuples. -/
structure PriorityQueue where
  heap : Array (ℤ ×ₗ String) := #[]

namespace PriorityQueue

/-- `push`. -/
def push (queue : PriorityQueue) (priority : ℤ) (item : String) : PriorityQueue :=
  { heap := BinaryHeap.push queue.heap (toLex (priority, item)) }

/-- `peek`. -/
def peek (queue : PriorityQueue) : Except RelayError (ℤ ×ₗ String) :=
  if h : 0 < queue.heap.size then
    .ok queue.heap[0]
  else
    .error (.invalid "the queue is empty; no minimum to peek")

/-- `pop`. -/
def pop (queue : PriorityQueue) : Except RelayError (ℤ ×ₗ String) × PriorityQueue :=
  if h : 0 < queue.heap.size then
    (.ok queue.heap[0], { heap := BinaryHeap.pop queue.heap h })
  else
    (.error (.invalid "the queue is empty; nothing to pop"), queue)

end PriorityQueue

/-- A call to the queue. -/
inductive PriorityQueueCall where
  | push (priority : ℤ) (item : String)
  | peek
  | pop

/-- The queue as a component. A push answers with nothing. -/
def priorityQueue :
    Machine PriorityQueue PriorityQueueCall (Except RelayError (Option (ℤ ×ₗ String))) where
  step queue
    | .push priority item => (.ok none, queue.push priority item)
    | .peek => (queue.peek.map some, queue)
    | .pop => (queue.pop.1.map some, queue.pop.2)

/-! ## What is outstanding -/

/-- A call and its answer. -/
abbrev PriorityQueueEvent := PriorityQueueCall × Except RelayError (Option (ℤ ×ₗ String))

/-- The pair that the call pushes. -/
def pushed : PriorityQueueEvent → Option (ℤ ×ₗ String)
  | (.push priority item, _) => some (toLex (priority, item))
  | _ => none

/-- The pair that the call pops. -/
def popped : PriorityQueueEvent → Option (ℤ ×ₗ String)
  | (.pop, .ok pair) => pair
  | _ => none

/-- These pairs have been pushed and not yet popped: with those that have been popped, they are all
that have been pushed. -/
def Outstanding (past : List PriorityQueueEvent) (pairs : Multiset (ℤ ×ₗ String)) : Prop :=
  (past.filterMap popped : Multiset (ℤ ×ₗ String)) + pairs =
    (past.filterMap pushed : Multiset (ℤ ×ₗ String))

/-- The queue is a heap of these pairs and gives out the least of them: a peek answers with it, and
a pop answers with it and takes one occurrence of it away. If there are none, both refuse. -/
structure PriorityQueue.Serves (queue : PriorityQueue) (pairs : Multiset (ℤ ×ₗ String)) :
    Prop where
  ordered : BinaryHeap.Ordered queue.heap
  holds : (queue.heap.toList : Multiset (ℤ ×ₗ String)) = pairs
  refuses : pairs = 0 →
    queue.peek = .error (.invalid "the queue is empty; no minimum to peek") ∧
      queue.pop = (.error (.invalid "the queue is empty; nothing to pop"), queue)
  least : pairs ≠ 0 → ∃ pair ∈ pairs, (∀ other ∈ pairs, pair ≤ other) ∧ queue.peek = .ok pair ∧
    queue.pop.1 = .ok pair ∧
    pairs = pair ::ₘ (queue.pop.2.heap.toList : Multiset (ℤ ×ₗ String))

theorem PriorityQueue.serves_of_ordered {queue : PriorityQueue}
    (h : BinaryHeap.Ordered queue.heap) : queue.Serves queue.heap.toList := by
  refine ⟨h, rfl, fun hnone => ?_, fun hsome => ?_⟩
  · have hempty : ¬ 0 < queue.heap.size := by
      rw [Array.size_eq_length_toList, (Multiset.coe_eq_zero _).mp hnone]
      exact Nat.lt_irrefl 0
    exact ⟨by rw [peek, dif_neg hempty], by rw [pop, dif_neg hempty]⟩
  · have hne : 0 < queue.heap.size := by
      rw [Array.size_eq_length_toList, List.length_pos_iff]
      exact fun hnil => hsome ((Multiset.coe_eq_zero _).mpr hnil)
    refine ⟨queue.heap[0], ?_, fun other hother => ?_, ?_, ?_, ?_⟩
    · exact Multiset.mem_coe.mpr (Array.getElem_mem_toList hne)
    · obtain ⟨i, hi, rfl⟩ := List.getElem_of_mem (Multiset.mem_coe.mp hother)
      exact h.root_le hi
    · rw [peek, dif_pos hne]
    · rw [pop, dif_pos hne]
    · rw [pop, dif_pos hne, Multiset.cons_coe, Multiset.coe_eq_coe]
      exact (BinaryHeap.pop_perm queue.heap hne).symm

/-- The heap is in order, and holds what has been pushed, save for what has been popped. -/
structure Queued (past : List PriorityQueueEvent) (queue : PriorityQueue) : Prop where
  ordered : BinaryHeap.Ordered queue.heap
  accounted : (past.filterMap popped ++ queue.heap.toList).Perm (past.filterMap pushed)

/-- Every call does to the heap what it does to the collection. -/
theorem Queued.step {past : List PriorityQueueEvent} {queue : PriorityQueue}
    (h : Queued past queue) (call : PriorityQueueCall) :
    Queued (past ++ [(call, (priorityQueue.step queue call).1)])
      (priorityQueue.step queue call).2 := by
  cases call with
  | push priority item =>
    show Queued (past ++ [(.push priority item, .ok none)]) (queue.push priority item)
    refine ⟨h.ordered.push _, ?_⟩
    have hpush := Array.perm_iff_toList_perm.mp
      (BinaryHeap.push_perm queue.heap (toLex (priority, item)))
    rw [Array.toList_push] at hpush
    have hmore := (hpush.append_left (past.filterMap popped)).trans
      (List.append_assoc _ _ _ ▸ h.accounted.append_right [toLex (priority, item)])
    simpa [PriorityQueue.push, popped, pushed, List.filterMap_cons] using hmore
  | peek =>
    show Queued (past ++ [(.peek, queue.peek.map some)]) queue
    exact ⟨h.ordered, by simpa [popped, pushed, List.filterMap_cons] using h.accounted⟩
  | pop =>
    show Queued (past ++ [(.pop, queue.pop.1.map some)]) queue.pop.2
    rw [PriorityQueue.pop]
    split
    · next hne =>
      refine ⟨h.ordered.pop hne, ?_⟩
      have hpop := (BinaryHeap.pop_perm queue.heap hne).append_left (past.filterMap popped)
      rw [List.append_cons] at hpop
      simpa [popped, pushed, List.filterMap_cons, Except.map] using hpop.trans h.accounted
    · refine ⟨h.ordered, ?_⟩
      simpa [popped, pushed, List.filterMap_cons, Except.map] using h.accounted

/-- **The priority queue.** After any calls the queue is a heap of the pairs that have been pushed
and not yet popped. A peek and a pop answer with the least of them, and the pop takes one occurrence
of it away. -/
theorem priorityQueue_serves (calls : List PriorityQueueCall) :
    ∃ pairs, Outstanding (priorityQueue.trace {} calls) pairs ∧
      (priorityQueue.final {} calls).Serves pairs := by
  have hempty : BinaryHeap.Ordered (#[] : Array (ℤ ×ₗ String)) := fun i _ hi =>
    absurd hi (Nat.not_lt_zero i)
  have hqueued : Queued (priorityQueue.trace {} calls) (priorityQueue.final {} calls) :=
    Machine.trace_always (P := Queued) ⟨hempty, .refl _⟩ (fun _ _ call h => h.step call) calls
  refine ⟨_, ?_, PriorityQueue.serves_of_ordered hqueued.ordered⟩
  rw [Outstanding, Multiset.coe_add]
  exact Multiset.coe_eq_coe.mpr hqueued.accounted

end Relay
