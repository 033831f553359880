import Mathlib.Algebra.Order.Ring.Int
import Mathlib.Data.List.Sort
import Mathlib.Data.Prod.Lex
import Mathlib.Data.String.Basic
import Relay.Errors
import Relay.Lib.BinaryHeap
import Relay.Lib.Machine

/-!
# Top N

The tracker keeps the `n` offers with the highest scores in a heap of pairs of score and item, the
lowest at the root. An offer is admitted while the heap is not full, and then only if its score
beats the score at the root, which it replaces; on equal scores the incumbent stays.

The heap is one of `heapq`, which is not part of the repository. What is relied on is in the fields
of `ScoreHeapq`. How a heap lays out its elements is left open, and so is which of several offers
with the score at the root goes first: the scores that are kept do not depend on it.

## Scope

The text of the threshold is left out. The heap of the standard library is a parameter.

## Main definitions

* `TopN`, with `offer` and `top`
* `topN`: the tracker as a component

## Main results

* `top_scores`: the scores on top are the `n` highest of all that were offered
* `offer_answers`: an offer is admitted exactly when fewer than `n` earlier offers score as high
-/

namespace Relay

/-- An element of the heap: a score with its item behind it. -/
abbrev Scored := ℤ ×ₗ String

/-- The score of an element. -/
def Scored.score (entry : Scored) : ℤ := (ofLex entry).1

/-- A smaller element does not have a higher score. -/
theorem Scored.score_mono {a b : Scored} (h : a ≤ b) : a.score ≤ b.score :=
  Prod.Lex.monotone_fst_ofLex h

/-- What is relied on of `heapq`. -/
structure ScoreHeapq where
  heappush : Array Scored → Scored → Array Scored
  heapreplace : (heap : Array Scored) → 0 < heap.size → Scored → Array Scored
  ordered_heappush : ∀ {heap} x, BinaryHeap.Ordered heap → BinaryHeap.Ordered (heappush heap x)
  heappush_perm : ∀ {heap} x, BinaryHeap.Ordered heap →
    (heappush heap x).toList.Perm (x :: heap.toList)
  ordered_heapreplace : ∀ {heap} h x, BinaryHeap.Ordered heap →
    BinaryHeap.Ordered (heapreplace heap h x)
  heapreplace_perm : ∀ {heap} h x, BinaryHeap.Ordered heap →
    (heap[0] :: (heapreplace heap h x).toList).Perm (x :: heap.toList)

/-- The heaps of this development are such heaps: the root is popped, and the element pushed. -/
def binaryScoreHeapq : ScoreHeapq where
  heappush := BinaryHeap.push
  heapreplace heap h x := BinaryHeap.push (BinaryHeap.pop heap h) x
  ordered_heappush x h := h.push x
  heappush_perm {heap} x _ := by
    have hpush := Array.perm_iff_toList_perm.mp (BinaryHeap.push_perm heap x)
    rw [Array.toList_push] at hpush
    exact hpush.trans (List.perm_append_singleton x heap.toList)
  ordered_heapreplace hne x h := (h.pop hne).push x
  heapreplace_perm {heap} hne x _ := by
    have hpush := Array.perm_iff_toList_perm.mp
      (BinaryHeap.push_perm (BinaryHeap.pop heap hne) x)
    rw [Array.toList_push] at hpush
    have hpush := hpush.trans (List.perm_append_singleton x _)
    exact (hpush.cons _).trans ((List.Perm.swap _ _ _).trans
      ((BinaryHeap.pop_perm heap hne).cons x))

/-- The tracker. The constructor refuses to keep nothing. -/
structure TopN where
  n : ℤ
  heap : Array Scored := #[]
  n_pos : 1 ≤ n

namespace TopN

/-- `offer`. -/
def offer (heapq : ScoreHeapq) (tracker : TopN) (item : String) (score : ℤ) : Bool × TopN :=
  if hfull : (tracker.heap.size : ℤ) < tracker.n then
    (true, { tracker with heap := heapq.heappush tracker.heap (toLex (score, item)) })
  else
    have hne : 0 < tracker.heap.size := by
      have := tracker.n_pos
      omega
    if score > tracker.heap[0].score then
      (true, { tracker with heap := heapq.heapreplace tracker.heap hne (toLex (score, item)) })
    else (false, tracker)

/-- `top`: the highest scores first, and on equal scores in the order of the heap. -/
def top (tracker : TopN) : List (String × ℤ) :=
  (tracker.heap.toList.mergeSort fun a b => b.score ≤ a.score).map fun entry =>
    ((ofLex entry).2, entry.score)

end TopN

/-- The tracker as a component. An offer is an item with its score. -/
def topN (heapq : ScoreHeapq) : Machine TopN (String × ℤ) Bool where
  step tracker call := tracker.offer heapq call.1 call.2

/-- The elements that were offered, oldest first. -/
def offered (past : List ((String × ℤ) × Bool)) : List Scored :=
  past.map fun e => toLex (e.1.2, e.1.1)

/-- The tracker keeps as many of the offers as it may, and none of those it does not keep has a
higher score than one that it keeps. -/
structure KeepsHighest (past : List ((String × ℤ) × Bool)) (tracker : TopN) : Prop where
  ordered : BinaryHeap.Ordered tracker.heap
  size_le : (tracker.heap.size : ℤ) ≤ tracker.n
  split : ∃ dropped : List Scored, (tracker.heap.toList ++ dropped).Perm (offered past) ∧
    (∀ d ∈ dropped, ∀ k ∈ tracker.heap.toList, d.score ≤ k.score) ∧
    (dropped ≠ [] → (tracker.heap.size : ℤ) = tracker.n)

namespace KeepsHighest

variable {past : List ((String × ℤ) × Bool)} {tracker : TopN} {heapq : ScoreHeapq}

theorem fresh (tracker : TopN) (hheap : tracker.heap = #[]) : KeepsHighest [] tracker := by
  have hn := tracker.n_pos
  refine ⟨?_, ?_, [], ?_, fun d hd => absurd hd List.not_mem_nil, fun h => absurd rfl h⟩
  · rw [hheap]
    intro i j hi
    exact absurd hi (Nat.not_lt_zero i)
  · rw [hheap]
    show ((0 : ℕ) : ℤ) ≤ tracker.n
    omega
  · rw [hheap]
    exact List.Perm.refl _

/-- The root has the lowest score that is kept. -/
theorem root_score_le (h : KeepsHighest past tracker) (hne : 0 < tracker.heap.size) {k : Scored}
    (hk : k ∈ tracker.heap.toList) : tracker.heap[0].score ≤ k.score := by
  obtain ⟨i, hi, rfl⟩ := List.getElem_of_mem hk
  exact Scored.score_mono (h.ordered.root_le hi)

theorem offer (h : KeepsHighest past tracker) (item : String) (score : ℤ) :
    KeepsHighest (past ++ [((item, score), (tracker.offer heapq item score).1)])
      (tracker.offer heapq item score).2 := by
  have hoffered (answer : Bool) : offered (past ++ [((item, score), answer)]) =
      offered past ++ [toLex (score, item)] := List.map_append
  obtain ⟨dropped, hperm, hle, hfull⟩ := h.split
  rw [TopN.offer]
  split
  · next hroom =>
    -- nothing was dropped yet
    have hnone : dropped = [] := by
      by_contra hne
      have := hfull hne
      omega
    subst hnone
    rw [List.append_nil] at hperm
    have hpush := heapq.heappush_perm (toLex (score, item)) h.ordered
    have hsize := hpush.length_eq
    rw [List.length_cons, Array.length_toList, Array.length_toList] at hsize
    refine ⟨heapq.ordered_heappush _ h.ordered, ?_, [], ?_, fun d hd => absurd hd List.not_mem_nil,
      fun hne => absurd rfl hne⟩
    · show ((heapq.heappush _ _).size : ℤ) ≤ tracker.n
      rw [hsize]
      omega
    · rw [hoffered, List.append_nil]
      exact hpush.trans ((hperm.cons _).trans (List.perm_append_singleton _ _).symm)
  · next hroom =>
    have hne : 0 < tracker.heap.size := by
      have := tracker.n_pos
      omega
    dsimp only
    split
    · next hbeats =>
      have hreplace := heapq.heapreplace_perm hne (toLex (score, item)) h.ordered
      have hsize := hreplace.length_eq
      rw [List.length_cons, List.length_cons, Array.length_toList, Array.length_toList] at hsize
      refine ⟨heapq.ordered_heapreplace _ _ h.ordered, ?_, tracker.heap[0] :: dropped, ?_, ?_, ?_⟩
      · show ((heapq.heapreplace _ _ _).size : ℤ) ≤ tracker.n
        have := h.size_le
        omega
      · rw [hoffered]
        refine List.perm_middle.trans ?_
        have hmoved := hreplace.append_right dropped
        rw [List.cons_append, List.cons_append] at hmoved
        exact hmoved.trans ((hperm.cons _).trans (List.perm_append_singleton _ _).symm)
      · -- what is kept now was kept before, or is the new element
        have hkept : ∀ k ∈ (heapq.heapreplace tracker.heap hne (toLex (score, item))).toList,
            tracker.heap[0].score ≤ k.score ∧ ∀ d ∈ dropped, d.score ≤ k.score := by
          intro k hk
          rcases List.mem_cons.mp (hreplace.mem_iff.mp (List.mem_cons_of_mem _ hk)) with rfl | hk
          · refine ⟨hbeats.le, fun d hd => ?_⟩
            exact (hle d hd _ (Array.getElem_mem_toList hne)).trans hbeats.le
          · exact ⟨h.root_score_le hne hk, fun d hd => hle d hd k hk⟩
        intro d hd k hk
        rcases List.mem_cons.mp hd with rfl | hd
        · exact (hkept k hk).1
        · exact (hkept k hk).2 d hd
      · intro _
        show ((heapq.heapreplace _ _ _).size : ℤ) = tracker.n
        have := h.size_le
        omega
    · next hbeats =>
      refine ⟨h.ordered, h.size_le, dropped ++ [toLex (score, item)], ?_, ?_, ?_⟩
      · rw [hoffered, ← List.append_assoc]
        exact hperm.append_right _
      · intro d hd k hk
        rcases List.mem_append.mp hd with hd | hd
        · exact hle d hd k hk
        · rw [List.mem_singleton.mp hd]
          exact (not_lt.mp hbeats).trans (h.root_score_le hne hk)
      · intro _
        show (tracker.heap.size : ℤ) = tracker.n
        have := h.size_le
        omega

/-- An offer is admitted exactly when fewer than `n` of the offers before score as high. -/
theorem offer_fst (h : KeepsHighest past tracker) (item : String) (score : ℤ) :
    (tracker.offer heapq item score).1 = true ↔
      (((offered past).countP fun entry => score ≤ entry.score : ℕ) : ℤ) < tracker.n := by
  obtain ⟨dropped, hperm, hle, hfull⟩ := h.split
  rw [← hperm.countP_eq, List.countP_append]
  have hsize := h.size_le
  have hheap : tracker.heap.toList.countP (fun entry => score ≤ entry.score) ≤
      tracker.heap.size :=
    List.countP_le_length.trans_eq Array.length_toList
  rw [TopN.offer]
  split
  · next hroom =>
    have hnone : dropped = [] := by
      by_contra hne
      have := hfull hne
      omega
    rw [hnone, List.countP_nil]
    exact iff_of_true rfl (by omega)
  · next hroom =>
    have hne : 0 < tracker.heap.size := by
      have := tracker.n_pos
      omega
    have hroot : tracker.heap[0] ∈ tracker.heap.toList := Array.getElem_mem_toList hne
    dsimp only
    split
    · next hbeats =>
      -- the root does not score as high, and nothing that was dropped does
      have hdropped : dropped.countP (fun entry => score ≤ entry.score) = 0 := by
        refine List.countP_eq_zero.mpr fun d hd => ?_
        rw [decide_eq_true_eq, not_le]
        exact (hle d hd _ hroot).trans_lt hbeats
      have hlt : tracker.heap.toList.countP (fun entry => score ≤ entry.score) ≠
          tracker.heap.toList.length := fun heq => by
        have hall := List.countP_eq_length.mp heq _ hroot
        rw [decide_eq_true_eq] at hall
        omega
      rw [Array.length_toList] at hlt
      exact iff_of_true rfl (by omega)
    · next hbeats =>
      have hall : tracker.heap.toList.countP (fun entry => score ≤ entry.score) =
          tracker.heap.toList.length := by
        refine List.countP_eq_length.mpr fun k hk => ?_
        rw [decide_eq_true_eq]
        exact (not_lt.mp hbeats).trans (h.root_score_le hne hk)
      rw [Array.length_toList] at hall
      exact iff_of_false Bool.false_ne_true (by omega)

end KeepsHighest

/-- A tracker that nothing was offered to. -/
def emptyTop (n : ℤ) (h : 1 ≤ n) : TopN where
  n := n
  n_pos := h

theorem keepsHighest_trace (heapq : ScoreHeapq) {n : ℤ} (hn : 1 ≤ n) (offers : List (String × ℤ)) :
    KeepsHighest ((topN heapq).trace (emptyTop n hn) offers)
      ((topN heapq).final (emptyTop n hn) offers) := by
  refine Machine.trace_always (P := KeepsHighest) ?_
    (fun _ _ call h => h.offer call.1 call.2) offers
  exact KeepsHighest.fresh (emptyTop n hn) rfl

theorem n_step (heapq : ScoreHeapq) (tracker : TopN) (call : String × ℤ) :
    ((topN heapq).step tracker call).2.n = tracker.n := by
  show (tracker.offer heapq call.1 call.2).2.n = _
  rw [TopN.offer]
  split
  · rfl
  · dsimp only
    split <;> rfl

/-- The scores of the offers, the highest first. -/
def sortedScores (offers : List (String × ℤ)) : List ℤ :=
  (offers.map Prod.snd).mergeSort fun a b => b ≤ a

theorem pairwise_sortedScores (offers : List (String × ℤ)) :
    (sortedScores offers).Pairwise fun a b => b ≤ a :=
  List.pairwise_mergeSort' (fun a b : ℤ => b ≤ a) _

/-- The scores on top come in descending order. -/
theorem pairwise_top (tracker : TopN) :
    (tracker.top.map Prod.snd).Pairwise fun a b => b ≤ a := by
  rw [TopN.top, List.map_map, List.pairwise_map]
  exact @List.pairwise_mergeSort _ (fun a b : Scored => decide (b.score ≤ a.score))
    (fun a b c hab hbc => by simp only [decide_eq_true_eq] at *; omega)
    (fun a b => by simp only [Bool.or_eq_true, decide_eq_true_eq]; omega) _ |>.imp
      fun hab => of_decide_eq_true hab

theorem perm_top (tracker : TopN) :
    tracker.top.Perm (tracker.heap.toList.map fun entry => ((ofLex entry).2, entry.score)) :=
  (List.mergeSort_perm _ _).map _

/-- **What is on top.** After any offers the pairs on top are among those offered, the highest
scores first, and their scores are the `n` highest of all that were offered. -/
theorem top_scores (heapq : ScoreHeapq) {n : ℤ} (hn : 1 ≤ n) (offers : List (String × ℤ)) :
    ((topN heapq).final (emptyTop n hn) offers).top.Subperm offers ∧
      ((topN heapq).final (emptyTop n hn) offers).top.map Prod.snd =
        (sortedScores offers).take n.toNat := by
  have h := keepsHighest_trace heapq hn offers
  have hn' := Machine.final_eq_of_step TopN.n (n_step heapq) (emptyTop n hn) offers
  obtain ⟨dropped, hperm, hle, hfull⟩ := h.split
  have hsize := h.size_le
  generalize (topN heapq).final (emptyTop n hn) offers = tracker at *
  -- back from the elements of the heap to what was offered
  have hoffers : (offered ((topN heapq).trace (emptyTop n hn) offers)).map
      (fun entry => ((ofLex entry).2, entry.score)) = offers := by
    conv_rhs => rw [← (topN heapq).map_fst_trace (emptyTop n hn) offers]
    rw [offered, List.map_map]
    rfl
  have hpairs := hperm.map fun entry => ((ofLex entry).2, entry.score)
  rw [hoffers, List.map_append] at hpairs
  have hall := (((perm_top tracker).append_right _).trans hpairs)
  refine ⟨(List.sublist_append_left _ _).subperm.trans hall.subperm, ?_⟩
  have hscores := hall.map Prod.snd
  rw [List.map_append, List.map_map] at hscores
  -- the dropped scores, sorted as well, come behind those on top
  have hsorted : tracker.top.map Prod.snd ++
      (dropped.map Scored.score).mergeSort (fun a b => b ≤ a) = sortedScores offers := by
    refine List.Perm.eq_of_pairwise (fun a b _ _ hab hba => le_antisymm hba hab) ?_
      (pairwise_sortedScores offers)
      (((List.mergeSort_perm _ _).append_left _).trans
        (hscores.trans (List.mergeSort_perm _ _).symm))
    refine List.pairwise_append.mpr ⟨pairwise_top tracker,
      List.pairwise_mergeSort' (fun a b : ℤ => b ≤ a) _, fun a ha b hb => ?_⟩
    rw [((perm_top tracker).map Prod.snd).mem_iff, List.map_map] at ha
    obtain ⟨k, hk, rfl⟩ := List.mem_map.mp ha
    obtain ⟨d, hd, rfl⟩ := List.mem_map.mp (List.mem_mergeSort.mp hb)
    exact hle d hd k hk
  have hlength : (tracker.top.map Prod.snd).length = tracker.heap.size := by
    rw [List.length_map, (perm_top tracker).length_eq, List.length_map, Array.length_toList]
  have hn' : tracker.n = n := hn'
  rw [← hsorted]
  by_cases hnone : dropped = []
  · rw [hnone, List.map_nil, List.mergeSort_nil, List.append_nil,
      List.take_of_length_le (by omega)]
  · have hsize := hfull hnone
    rw [List.take_append_of_le_length (by omega), List.take_of_length_le (by omega)]

/-- Whether an event was answered by how many of the offers before it score as high. -/
def AdmitsTop (n : ℤ) (past : List ((String × ℤ) × Bool)) (e : (String × ℤ) × Bool) : Prop :=
  e.2 = true ↔ ((past.countP fun earlier => e.1.2 ≤ earlier.1.2 : ℕ) : ℤ) < n

/-- **What is admitted.** In every run an offer is admitted exactly when fewer than `n` of the
offers before it score at least as high. -/
theorem offer_answers (heapq : ScoreHeapq) {n : ℤ} (hn : 1 ≤ n) (offers : List (String × ℤ)) :
    Justified (AdmitsTop n) ((topN heapq).trace (emptyTop n hn) offers) := by
  refine (Machine.trace_always
    (P := fun past (tracker : TopN) =>
      tracker.n = n ∧ KeepsHighest past tracker ∧ Justified (AdmitsTop n) past)
    ⟨rfl, keepsHighest_trace heapq hn [], justified_nil _⟩
    (fun past tracker call h => ?_) offers).2.2
  refine ⟨(n_step heapq tracker call).trans h.1, h.2.1.offer call.1 call.2,
    justified_append_singleton.mpr ⟨h.2.2, ?_⟩⟩
  have hanswer : (tracker.offer heapq call.1 call.2).1 = true ↔ _ := h.2.1.offer_fst call.1 call.2
  rw [offered, List.countP_map, h.1] at hanswer
  exact hanswer

/-- Two are kept: the offer with a score of 5 is not admitted again, the one with 7 is. -/
theorem top_scores_two :
    ((topN binaryScoreHeapq).final (emptyTop 2 (by decide))
        [("a", 5), ("b", 9), ("c", 5), ("d", 7)]).top.map Prod.snd =
      (sortedScores [("a", 5), ("b", 9), ("c", 5), ("d", 7)]).take 2 :=
  (top_scores binaryScoreHeapq _ _).2

/-- The same offers with their answers. -/
theorem offer_answers_two :
    Justified (AdmitsTop 2) ((topN binaryScoreHeapq).trace (emptyTop 2 (by decide))
      [("a", 5), ("b", 9), ("c", 5), ("d", 7)]) :=
  offer_answers binaryScoreHeapq _ _

end Relay
