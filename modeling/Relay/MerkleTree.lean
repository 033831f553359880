import Mathlib.Data.List.Nodup
import Mathlib.Data.List.Pairwise
import Mathlib.Data.Set.Function
import Mathlib.Order.Lattice
import Relay.Errors
import Relay.Lib.Pairing

/-!
# Merkle tree

Leaves are hashed, and the hashes are folded by pairs up to a root. Two trees with as many leaves
are folded through the same levels, so that equal roots come from equal levels all the way down to
the leaves, if the hash tells apart the texts that are hashed on the way.

A text is two hashes one after the other. All hashes are of the same length, so the text tells which
two they are.

## Scope

The note on the share of the leaves that differ is left out. The hash is a parameter.

## Main definitions

* `MerkleTree`, with `leafHashes`, `root` and `diff`
* `MerkleTree.texts`: what is hashed for the root of a tree

## Main results

* `root_eq_iff`: equal roots are equal leaves
* `diff_spec`: roots and differences of two trees with as many leaves
-/

namespace Relay

open Pairing

/-- A Merkle tree. -/
structure MerkleTree where
  leaves : List String := []

namespace MerkleTree

variable (h : String → String)

/-- The hash of two hashes one after the other. -/
def hashPair (pair : String × String) : String := h (pair.1 ++ pair.2)

/-- `leaf_hashes`. -/
def leafHashes (tree : MerkleTree) : List String := tree.leaves.map h

/-- `root`. -/
def root (tree : MerkleTree) : String :=
  let level := tree.leafHashes h
  if level = [] then h ""
  else (climb (hashPair h) level).headD ""

/-- `diff`. -/
def diff (tree other : MerkleTree) : Except RelayError (List ℕ) :=
  if tree.leaves.length ≠ other.leaves.length then
    .error (.invalid ("trees have different leaf counts; their leaves do not line "
      ++ "up and a diff would report misalignment as difference"))
  else if tree.root h = other.root h then .ok []
  else
    let a := tree.leafHashes h
    let b := other.leafHashes h
    .ok ((List.range a.length).filter fun i => a[i]? ≠ b[i]?)

/-- What is hashed for the root of a tree that is not empty: the leaves, and two hashes one after
the other at every level. -/
def texts (tree : MerkleTree) : List String :=
  tree.leaves ++ (joined (hashPair h) (tree.leafHashes h)).map fun pair => pair.1 ++ pair.2

variable {h} {a b : MerkleTree}

/-- Two hashes one after the other tell which two they are. -/
theorem pair_eq_of_append_eq {p q : String × String} (hlength : p.1.length = q.1.length)
    (happend : p.1 ++ p.2 = q.1 ++ q.2) : p = q := by
  have hchars := congrArg String.toList happend
  rw [String.toList_append, String.toList_append] at hchars
  rw [← String.length_toList, ← String.length_toList] at hlength
  obtain ⟨hfst, hsnd⟩ := List.append_inj hchars hlength
  exact Prod.ext (String.toList_inj.mp hfst) (String.toList_inj.mp hsnd)

/-- A hash that tells apart what is hashed for two trees tells apart the pairs that are joined. -/
theorem injOn_hashPair (hdigits : ∀ text, (h text).length = 16)
    (hinj : Set.InjOn h {text | text ∈ a.texts h ∨ text ∈ b.texts h}) :
    Set.InjOn (hashPair h) {p | p ∈ joined (hashPair h) (a.leafHashes h) ∨
      p ∈ joined (hashPair h) (b.leafHashes h)} := by
  have hsixteen : ∀ tree : MerkleTree, ∀ p ∈ joined (hashPair h) (tree.leafHashes h),
      p.1.length = 16 := by
    intro tree p hp
    refine (forall_joined (P := fun s => s.length = 16) (fun s hs => ?_) (fun q => ?_) p hp).1
    · obtain ⟨leaf, -, rfl⟩ := List.mem_map.mp hs
      exact hdigits leaf
    · exact hdigits _
  have hfirst : ∀ p ∈ {p | p ∈ joined (hashPair h) (a.leafHashes h) ∨
      p ∈ joined (hashPair h) (b.leafHashes h)}, p.1.length = 16 ∧
        p.1 ++ p.2 ∈ {text | text ∈ a.texts h ∨ text ∈ b.texts h} := by
    rintro p (hp | hp)
    · exact ⟨hsixteen a p hp, Or.inl (List.mem_append_right _ (List.mem_map_of_mem hp))⟩
    · exact ⟨hsixteen b p hp, Or.inr (List.mem_append_right _ (List.mem_map_of_mem hp))⟩
  intro p hp q hq heq
  obtain ⟨hplength, hptext⟩ := hfirst p hp
  obtain ⟨hqlength, hqtext⟩ := hfirst q hq
  exact pair_eq_of_append_eq (hplength.trans hqlength.symm) (hinj hptext hqtext heq)

/-- The hashes of leaves tell the leaves. -/
theorem leaves_eq_of_leafHashes_eq
    (hinj : Set.InjOn h {text | text ∈ a.texts h ∨ text ∈ b.texts h})
    (heq : a.leafHashes h = b.leafHashes h) : a.leaves = b.leaves :=
  eq_of_map_eq hinj (fun _ hleaf => Or.inl (List.mem_append_left _ hleaf))
    (fun _ hleaf => Or.inr (List.mem_append_left _ hleaf)) heq

/-- **Equal roots are equal leaves**, for trees with as many of them. -/
theorem root_eq_iff (hcount : a.leaves.length = b.leaves.length)
    (hdigits : ∀ text, (h text).length = 16)
    (hinj : Set.InjOn h {text | text ∈ a.texts h ∨ text ∈ b.texts h}) :
    a.root h = b.root h ↔ a.leaves = b.leaves := by
  constructor
  · intro hroot
    have hlength : (a.leafHashes h).length = (b.leafHashes h).length := by
      rw [leafHashes, leafHashes, List.length_map, List.length_map, hcount]
    refine leaves_eq_of_leafHashes_eq hinj ?_
    rcases eq_or_ne (a.leafHashes h) [] with ha | ha
    · rw [ha, List.length_nil] at hlength
      rw [ha, List.length_eq_zero_iff.mp hlength.symm]
    · have hb : b.leafHashes h ≠ [] := by
        rw [← List.length_pos_iff] at ha ⊢
        omega
      rw [root, root, if_neg ha, if_neg hb] at hroot
      have hone : (climb (hashPair h) (a.leafHashes h)).length = 1 := length_climb ha
      have hone' : (climb (hashPair h) (b.leafHashes h)).length = 1 := length_climb hb
      obtain ⟨top, htop⟩ := List.length_eq_one_iff.mp hone
      obtain ⟨top', htop'⟩ := List.length_eq_one_iff.mp hone'
      rw [htop, htop'] at hroot
      refine eq_of_climb_eq hlength (injOn_hashPair hdigits hinj) ?_
      rw [htop, htop']
      exact congrArg (fun top => [top]) hroot
  · intro heq
    rw [root, root, leafHashes, leafHashes, heq]

/-- The hashes of two trees differ where their leaves do. -/
theorem getElem?_leafHashes_ne_iff (hcount : a.leaves.length = b.leaves.length)
    (hinj : Set.InjOn h {text | text ∈ a.texts h ∨ text ∈ b.texts h}) (i : ℕ) :
    (a.leafHashes h)[i]? ≠ (b.leafHashes h)[i]? ↔ a.leaves[i]? ≠ b.leaves[i]? := by
  rw [leafHashes, leafHashes, List.getElem?_map, List.getElem?_map]
  refine not_congr ?_
  rcases Nat.lt_or_ge i a.leaves.length with hi | hi
  · have ha : a.leaves[i] ∈ {text | text ∈ a.texts h ∨ text ∈ b.texts h} :=
      Or.inl (List.mem_append_left _ (List.getElem_mem hi))
    have hb : b.leaves[i] ∈ {text | text ∈ a.texts h ∨ text ∈ b.texts h} :=
      Or.inr (List.mem_append_left _ (List.getElem_mem (hcount ▸ hi)))
    rw [List.getElem?_eq_getElem hi, List.getElem?_eq_getElem (hcount ▸ hi), Option.map_some,
      Option.map_some, Option.some.injEq, Option.some.injEq]
    exact hinj.eq_iff ha hb
  · rw [List.getElem?_eq_none hi, List.getElem?_eq_none (hcount ▸ hi)]
    exact ⟨fun _ => rfl, fun _ => rfl⟩

/-- **Two trees with as many leaves.** Their roots are equal exactly when their leaves are, and
`diff` gives the places at which the leaves differ, in increasing order. -/
theorem diff_spec (h : String → String) (a b : MerkleTree)
    (hcount : a.leaves.length = b.leaves.length) (hdigits : ∀ text, (h text).length = 16)
    (hinj : Set.InjOn h {text | text ∈ a.texts h ∨ text ∈ b.texts h}) :
    (a.root h = b.root h ↔ a.leaves = b.leaves) ∧
      ∃ indices, a.diff h b = .ok indices ∧ indices.Pairwise (· < ·) ∧
        ∀ i, i ∈ indices ↔ a.leaves[i]? ≠ b.leaves[i]? := by
  have hroot := root_eq_iff hcount hdigits hinj
  refine ⟨hroot, ?_⟩
  rw [diff, if_neg (not_not.mpr hcount)]
  split
  · rename_i hsame
    refine ⟨[], rfl, List.Pairwise.nil, fun i => ?_⟩
    simp [hroot.mp hsame]
  · refine ⟨_, rfl, List.pairwise_lt_range.filter _, fun i => ?_⟩
    rw [List.mem_filter, List.mem_range, decide_eq_true_eq, getElem?_leafHashes_ne_iff hcount hinj,
      and_iff_right_iff_imp, leafHashes, List.length_map]
    intro hdiffer
    by_contra hout
    rw [List.getElem?_eq_none (not_lt.mp hout),
      List.getElem?_eq_none (hcount ▸ not_lt.mp hout)] at hdiffer
    exact hdiffer rfl

/-! ### A leaf that differs -/

/-- The hashes that are taken below. -/
def hashes : List (String × String) :=
  [("a", "ca978112ca1bbdca"), ("b", "3e23e8160039594a"), ("c", "2e7d2c03a9507ae2"),
    ("x", "2d711642b726b044"), ("ca978112ca1bbdca3e23e8160039594a", "058a8ed3b7f6a832"),
    ("ca978112ca1bbdca2d711642b726b044", "e6dd7b27ac8ecb78"),
    ("2e7d2c03a9507ae22e7d2c03a9507ae2", "0fb5a79b6f374f3c"),
    ("058a8ed3b7f6a8320fb5a79b6f374f3c", "c4108266cc9a3dfe"),
    ("e6dd7b27ac8ecb780fb5a79b6f374f3c", "0cd32782e1889842")]

/-- A hash of sixteen digits that is the first half of SHA-256 where it is taken. -/
def shortHash (text : String) : String := (hashes.lookup text).getD "0000000000000000"

theorem length_shortHash (text : String) : (shortHash text).length = 16 := by
  rw [shortHash]
  cases hfound : hashes.lookup text with
  | none => decide
  | some digits =>
    obtain ⟨before, after, heq, -⟩ := List.lookup_eq_some_iff.mp hfound
    have hmem : (text, digits) ∈ hashes := heq ▸ by simp
    have hall : ∀ entry ∈ hashes, entry.2.length = 16 := by decide
    exact hall _ hmem

theorem texts_shortHash (second : String) :
    texts shortHash ⟨["a", second, "c"]⟩ =
      ["a", second, "c", shortHash "a" ++ shortHash second, shortHash "c" ++ shortHash "c",
        shortHash (shortHash "a" ++ shortHash second) ++
          shortHash (shortHash "c" ++ shortHash "c")] := by
  rw [texts, joined.eq_def, if_pos (by simp [leafHashes]), joined.eq_def,
    if_pos (by simp [leafHashes, pairs]), joined.eq_def, if_neg (by simp [leafHashes, pairs])]
  rfl

/-- One leaf of three differs. -/
theorem oneLeaf_diff_spec :
    (root shortHash ⟨["a", "b", "c"]⟩ = root shortHash ⟨["a", "x", "c"]⟩ ↔
      ["a", "b", "c"] = ["a", "x", "c"]) ∧
      ∃ indices, diff shortHash ⟨["a", "b", "c"]⟩ ⟨["a", "x", "c"]⟩ = .ok indices ∧
        indices.Pairwise (· < ·) ∧
        ∀ i : ℕ, i ∈ indices ↔ ["a", "b", "c"][i]? ≠ ["a", "x", "c"][i]? := by
  refine diff_spec shortHash _ _ rfl length_shortHash ?_
  have hnodup : ((hashes.map Prod.fst).map shortHash).Nodup := by decide +kernel
  have htexts : ∀ second ∈ ["b", "x"], ∀ s ∈ texts shortHash ⟨["a", second, "c"]⟩,
      s ∈ hashes.map Prod.fst := by
    simp only [texts_shortHash]
    decide +kernel
  have hhashed : ∀ s ∈ {text | text ∈ texts shortHash ⟨["a", "b", "c"]⟩ ∨
      text ∈ texts shortHash ⟨["a", "x", "c"]⟩}, s ∈ hashes.map Prod.fst := by
    rintro s (hs | hs)
    · exact htexts "b" (by decide) s hs
    · exact htexts "x" (by decide) s hs
  intro s hs t ht heq
  exact List.inj_on_of_nodup_map hnodup (hhashed s hs) (hhashed t ht) heq

end MerkleTree

end Relay
