import Mathlib.Data.Multiset.AddSub
import Mathlib.Order.Lattice

/-!
# Binary heaps

An array is read as a binary tree: the children of the node at `i` stand at `2 * i + 1` and
`2 * i + 2`. It is a heap when no child is smaller than its parent, and then nothing is smaller than
the root.

A heap is repaired along one path. While an element is on its way, the order is broken at one node
only, and it is broken on one side of it: above the node while the element rises (`UpOrder`), below
it while the element sinks (`DownOrder`). In both cases what is above the node is no greater than
what is below it, and this is why a swap moves the break by one node and mends the order behind it.

## Main definitions

* `IsChild`, `Ordered`: the tree and its order
* `siftUp`, `siftDown`: the two repairs
* `push`, `pop`: one more element, and the heap without its root

## Main results

* `siftUp_perm`, `siftDown_perm`: a repair moves elements and changes none
* `UpOrder.siftUp`, `DownOrder.siftDown`: a repair mends the order
* `Ordered.root_le`: nothing is smaller than the root
* `push_perm`, `Ordered.push`, `pop_perm`, `Ordered.pop`: what the operations do
-/

namespace Relay

namespace BinaryHeap

variable {α : Type*} [LinearOrder α]

/-- The node at `j` is a child of the node at `i`. -/
def IsChild (i j : ℕ) : Prop := j = 2 * i + 1 ∨ j = 2 * i + 2

/-- No child is smaller than its parent. -/
def Ordered (a : Array α) : Prop :=
  ∀ i j (hi : i < a.size) (hj : j < a.size), IsChild i j → a[i] ≤ a[j]

/-- The order is broken above the node at `k` at most. -/
structure UpOrder (a : Array α) (k : ℕ) : Prop where
  except : ∀ i j (hi : i < a.size) (hj : j < a.size), IsChild i j → j ≠ k → a[i] ≤ a[j]
  grand : ∀ i j (hi : i < a.size) (hj : j < a.size), IsChild i k → IsChild k j → a[i] ≤ a[j]

/-- The order is broken below the node at `k` at most. -/
structure DownOrder (a : Array α) (k : ℕ) : Prop where
  except : ∀ i j (hi : i < a.size) (hj : j < a.size), IsChild i j → i ≠ k → a[i] ≤ a[j]
  grand : ∀ i j (hi : i < a.size) (hj : j < a.size), IsChild i k → IsChild k j → a[i] ≤ a[j]

/-! ## The repairs -/

/-- While the element at `i` is smaller than its parent, the two are swapped. -/
def siftUp (a : Array α) (i : ℕ) (hi : i < a.size) : Array α :=
  if h : 0 < i then
    if a[i] < a[(i - 1) / 2] then
      siftUp (a.swap i ((i - 1) / 2)) ((i - 1) / 2) (by rw [Array.size_swap]; omega)
    else
      a
  else
    a
termination_by i

/-- The smaller of the node at `s` and the one at `c`, if there is one at `c`. -/
def pick (a : Array α) (s : Fin a.size) (c : ℕ) : Fin a.size :=
  if h : c < a.size then
    if a[c] < a[s] then ⟨c, h⟩ else s
  else
    s

/-- The smallest of a node and its children. -/
def smallest (a : Array α) (i : Fin a.size) : Fin a.size :=
  pick a (pick a i (2 * i + 1)) (2 * i + 2)

theorem pick_eq_or (a : Array α) (s : Fin a.size) (c : ℕ) :
    pick a s c = s ∨ (pick a s c).val = c := by
  rw [pick]
  split
  · split
    · exact Or.inr rfl
    · exact Or.inl rfl
  · exact Or.inl rfl

/-- What is picked is no greater than either. -/
theorem pick_le (a : Array α) (s : Fin a.size) (c : ℕ) :
    a[pick a s c] ≤ a[s] ∧ ∀ hc : c < a.size, a[pick a s c] ≤ a[c] := by
  unfold pick
  split
  · split
    · next hlt => exact ⟨hlt.le, fun _ => le_refl _⟩
    · next hle => exact ⟨le_refl _, fun _ => not_lt.mp hle⟩
  · next hc => exact ⟨le_refl _, fun hc' => absurd hc' hc⟩

/-- The smallest is the node or one of its children. -/
theorem smallest_eq_or (a : Array α) (i : Fin a.size) :
    smallest a i = i ∨ IsChild i (smallest a i) := by
  rcases pick_eq_or a (pick a i (2 * i + 1)) (2 * i + 2) with h | h
  · rcases pick_eq_or a i (2 * i + 1) with h' | h'
    · exact Or.inl (h.trans h')
    · exact Or.inr (Or.inl ((congrArg Fin.val h).trans h'))
  · exact Or.inr (Or.inr h)

/-- The smallest is no greater than the node and its children. -/
theorem smallest_le (a : Array α) (i : Fin a.size) :
    a[smallest a i] ≤ a[i] ∧
      ∀ j (hj : j < a.size), IsChild i j → a[smallest a i] ≤ a[j] := by
  obtain ⟨hleft, hleft'⟩ := pick_le a i (2 * i + 1)
  obtain ⟨hright, hright'⟩ := pick_le a (pick a i (2 * i + 1)) (2 * i + 2)
  refine ⟨hright.trans hleft, ?_⟩
  rintro j hj (rfl | rfl)
  · exact hright.trans (hleft' hj)
  · exact hright' hj

/-- While the element at `i` is greater than its smallest child, the two are swapped. -/
def siftDown (a : Array α) (i : ℕ) (hi : i < a.size) : Array α :=
  let s := smallest a ⟨i, hi⟩
  if h : s = ⟨i, hi⟩ then a
  else siftDown (a.swap i s) s (by rw [Array.size_swap]; exact s.isLt)
termination_by a.size - i
decreasing_by
  have hs : IsChild i (smallest a ⟨i, hi⟩) := (smallest_eq_or a ⟨i, hi⟩).resolve_left h
  rw [Array.size_swap]
  rcases hs with hs | hs <;> omega

/-- The element is added at the end and rises. -/
def push (a : Array α) (x : α) : Array α :=
  siftUp (a.push x) a.size (by rw [Array.size_push]; exact Nat.lt_succ_self _)

/-- The last element is taken off, and if there are others, it takes the place of the root and
sinks. -/
def pop (a : Array α) (h : 0 < a.size) : Array α :=
  let last := a[a.size - 1]
  if h' : 0 < a.pop.size then
    siftDown (a.pop.set 0 last h') 0 (by rw [Array.size_set]; exact h')
  else
    a.pop

/-- Moving up only changes the order. -/
theorem siftUp_perm (a : Array α) (i : ℕ) (hi : i < a.size) :
    (siftUp a i hi).Perm a := by
  induction a, i, hi using siftUp.induct with
  | case1 a i hi h hlt ih =>
    rw [siftUp, dif_pos h, if_pos hlt]
    exact ih.trans (Array.swap_perm _ _)
  | case2 a i hi h hle =>
    rw [siftUp, dif_pos h, if_neg hle]
  | case3 a i hi h =>
    rw [siftUp, dif_neg h]

/-- So does moving down. -/
theorem siftDown_perm (a : Array α) (i : ℕ) (hi : i < a.size) :
    (siftDown a i hi).Perm a := by
  induction a, i, hi using siftDown.induct with
  | case1 a i hi s h =>
    rw [siftDown, dif_pos h]
  | case2 a i hi s h ih =>
    rw [siftDown, dif_neg h]
    exact ih.trans (Array.swap_perm _ _)

/-! ## The order -/

section Order

variable {a : Array α} {i j k p c : ℕ}

theorem IsChild.lt (h : IsChild i j) : i < j := by
  rcases h with rfl | rfl <;> omega

theorem IsChild.eq_parent (h : IsChild i j) (h' : IsChild k j) : i = k := by
  rcases h with rfl | rfl <;> rcases h' with h' | h' <;> omega

theorem isChild_parent (h : 0 < i) : IsChild ((i - 1) / 2) i := by
  rw [IsChild]
  omega

/-- A swap with a greater parent moves the break up. -/
theorem UpOrder.swap (h : UpOrder a k) (hk : k < a.size) (hp : p < a.size) (hchild : IsChild p k)
    (hlt : a[k] < a[p]) : UpOrder (a.swap k p) p := by
  have hpk : p ≠ k := hchild.lt.ne
  constructor
  · intro i j hi' hj' hij hjp
    have hi : i < a.size := by rwa [Array.size_swap] at hi'
    have hj : j < a.size := by rwa [Array.size_swap] at hj'
    rw [Array.getElem_swap, Array.getElem_swap]
    have hij' := hij.lt
    by_cases hjk : j = k
    · -- the swapped pair itself
      subst hjk
      obtain rfl := hij.eq_parent hchild
      simpa [hij'.ne] using hlt.le
    · rw [if_neg hjk, if_neg hjp]
      by_cases hik : i = k
      · subst hik
        simpa using h.grand p j hp hj hchild hij
      · rw [if_neg hik]
        by_cases hip : i = p
        · subst hip
          simpa using hlt.le.trans (h.except i j hi hj hij hjk)
        · rw [if_neg hip]
          exact h.except i j hi hj hij hjk
  · intro i j hi' hj' hip hpj
    have hi : i < a.size := by rwa [Array.size_swap] at hi'
    have hj : j < a.size := by rwa [Array.size_swap] at hj'
    rw [Array.getElem_swap_of_ne (hip.lt.trans hchild.lt).ne hip.lt.ne]
    by_cases hjk : j = k
    · subst hjk
      rw [Array.getElem_swap_left]
      exact h.except i p hi hp hip hpk
    · rw [Array.getElem_swap_of_ne hjk hpj.lt.ne']
      exact (h.except i p hi hp hip hpk).trans (h.except p j hp hj hpj hjk)

/-- **Moving up** puts a heap in order that is out of order at one node towards its parent. -/
theorem UpOrder.siftUp {hk : k < a.size} (h : UpOrder a k) : Ordered (siftUp a k hk) := by
  induction a, k, hk using siftUp.induct with
  | case1 a k hk hpos hlt ih =>
    rw [BinaryHeap.siftUp, dif_pos hpos, if_pos hlt]
    exact ih (h.swap hk (by omega) (isChild_parent hpos) hlt)
  | case2 a k hk hpos hle =>
    rw [BinaryHeap.siftUp, dif_pos hpos, if_neg hle]
    intro i j hi hj hij
    by_cases hjk : j = k
    · subst hjk
      obtain rfl := hij.eq_parent (isChild_parent hpos)
      exact not_lt.mp hle
    · exact h.except i j hi hj hij hjk
  | case3 a k hk hroot =>
    rw [BinaryHeap.siftUp, dif_neg hroot]
    intro i j hi hj hij
    have := hij.lt
    exact h.except i j hi hj hij (by omega)

/-- A swap with the smallest child moves the break down. -/
theorem DownOrder.swap (h : DownOrder a k) (hk : k < a.size) (hc : c < a.size)
    (hchild : IsChild k c) (hle : a[c] ≤ a[k])
    (hleast : ∀ j (hj : j < a.size), IsChild k j → a[c] ≤ a[j]) :
    DownOrder (a.swap k c) c := by
  have hkc : k ≠ c := hchild.lt.ne
  constructor
  · intro i j hi' hj' hij hic
    have hi : i < a.size := by rwa [Array.size_swap] at hi'
    have hj : j < a.size := by rwa [Array.size_swap] at hj'
    rw [Array.getElem_swap, Array.getElem_swap]
    have hij' := hij.lt
    by_cases hik : i = k
    · subst hik
      by_cases hjc : j = c
      · subst hjc
        simpa [hij'.ne'] using hle
      · simpa [hij'.ne', hjc] using hleast j hj hij
    · rw [if_neg hik, if_neg hic]
      by_cases hjk : j = k
      · subst hjk
        simpa using h.grand i c hi hc hij hchild
      · have hjc : j ≠ c := fun hjc => hik (hij.eq_parent (hjc ▸ hchild))
        rw [if_neg hjk, if_neg hjc]
        exact h.except i j hi hj hij hik
  · intro i j hi' hj' hic hcj
    have hj : j < a.size := by rwa [Array.size_swap] at hj'
    obtain rfl := hic.eq_parent hchild
    rw [Array.getElem_swap_left, Array.getElem_swap_of_ne (hic.lt.trans hcj.lt).ne' hcj.lt.ne']
    exact h.except c j hc hj hcj hkc.symm

/-- **Moving down** puts a heap in order that is out of order at one node towards its children. -/
theorem DownOrder.siftDown {hk : k < a.size} (h : DownOrder a k) : Ordered (siftDown a k hk) := by
  induction a, k, hk using siftDown.induct with
  | case1 a k hk s hs =>
    rw [BinaryHeap.siftDown, dif_pos hs]
    intro i j hi hj hij
    by_cases hik : i = k
    · subst hik
      calc a[i] = a[s] := by simp only [hs, Fin.getElem_fin]
        _ ≤ a[j] := (smallest_le a ⟨i, hk⟩).2 j hj hij
    · exact h.except i j hi hj hij hik
  | case2 a k hk s hs ih =>
    rw [BinaryHeap.siftDown, dif_neg hs]
    obtain ⟨hle, hleast⟩ := smallest_le a ⟨k, hk⟩
    exact ih (h.swap hk s.isLt ((smallest_eq_or a ⟨k, hk⟩).resolve_left hs) hle hleast)

/-- The induction is on the node: its parent stands before it. -/
theorem Ordered.root_le (h : Ordered a) (hi : i < a.size) : a[0] ≤ a[i] := by
  induction i using Nat.strong_induction_on with
  | h i ih =>
    rcases Nat.eq_zero_or_pos i with rfl | hpos
    · exact le_refl _
    · have hchild := isChild_parent hpos
      have hp : (i - 1) / 2 < a.size := hchild.lt.trans hi
      exact (ih _ hchild.lt hp).trans (h _ _ hp hi hchild)

/-! ## The operations -/

theorem push_perm (a : Array α) (x : α) : (push a x).Perm (a.push x) :=
  siftUp_perm _ _ _

theorem Ordered.push (h : Ordered a) (x : α) : Ordered (push a x) := by
  refine UpOrder.siftUp ⟨fun i j hi hj hij hne => ?_, fun i j hi hj hi' hj' => ?_⟩
  · rw [Array.size_push] at hi hj
    have hj : j < a.size := by omega
    rw [Array.getElem_push_lt (hij.lt.trans hj), Array.getElem_push_lt hj]
    exact h i j _ hj hij
  · -- the last node has no children
    rw [Array.size_push] at hj
    exact absurd hj'.lt (by omega)

/-- The root and the heap without it are the heap. -/
theorem pop_perm (a : Array α) (h : 0 < a.size) : (a[0] :: (pop a h).toList).Perm a.toList := by
  have hsplit : a.pop.toList ++ [a[a.size - 1]] = a.toList := by
    have hne : a.toList ≠ [] := List.ne_nil_of_length_pos h
    rw [Array.toList_pop, ← List.dropLast_append_getLast hne, List.getLast_eq_getElem]
    simp
  have hroot {y : α} {l : List α} (hl : a.toList = y :: l) : a[0] = y := by
    rw [Array.getElem_eq_iff, ← Array.getElem?_toList, hl]
    rfl
  rw [pop]
  split
  · next hrest =>
    have hsift := Array.perm_iff_toList_perm.mp
      (siftDown_perm (a.pop.set 0 a[a.size - 1]) 0 (by rw [Array.size_set]; exact hrest))
    obtain ⟨y, l, hpop⟩ := List.exists_cons_of_length_pos hrest
    rw [Array.toList_set, hpop] at hsift
    rw [hpop] at hsplit
    rw [hroot hsplit.symm, ← hsplit]
    exact (hsift.trans (List.perm_append_singleton _ _).symm).cons y
  · next hrest =>
    have hpop : a.pop.toList = [] := List.eq_nil_of_length_eq_zero (Nat.eq_zero_of_not_pos hrest)
    rw [hpop] at hsplit
    rw [hroot hsplit.symm, ← hsplit, hpop]
    exact List.Perm.refl _

theorem Ordered.pop (h : Ordered a) (hne : 0 < a.size) : Ordered (pop a hne) := by
  have hpop : Ordered a.pop := by
    intro i j hi hj hij
    rw [Array.getElem_pop, Array.getElem_pop]
    exact h i j _ _ hij
  rw [BinaryHeap.pop]
  split
  · next hrest =>
    refine DownOrder.siftDown ⟨fun i j hi hj hij hne => ?_, fun i j hi hj hi' hj' => ?_⟩
    · rw [Array.size_set] at hi hj
      rw [Array.getElem_set_ne _ _ hne.symm, Array.getElem_set_ne _ _ (by have := hij.lt; omega)]
      exact hpop i j hi hj hij
    · exact absurd hi'.lt (Nat.not_lt_zero i)
  · exact hpop

end Order

end BinaryHeap

end Relay
