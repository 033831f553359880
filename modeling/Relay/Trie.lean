import Mathlib.Algebra.Order.Ring.Int
import Mathlib.Data.Finset.Card
import Mathlib.Data.Finset.Insert
import Relay.Errors
import Relay.Lib.Dict

/-!
# Prefix trie

Prefixes are kept as paths in a tree, one character a step, with a mark where a prefix ends. A name
is walked down the tree as far as there is a path, and the last mark on the way is the longest
prefix that the name starts with.

What a tree says is which words it holds, and an insertion adds one word to them, whatever paths it
shares with others (`holds_insert`). The walk is then about words and not about nodes
(`walk_spec`), and a trie knows the prefixes that were inserted in the order-free way that the
answers ask for (`Represents`).

## Scope

The test whether any prefix matches is left out, and so are the number of nodes and the report. The
test only asks whether the longest prefix is found.

## Main definitions

* `TrieNode`, with `holds`, `insert` and `walk`
* `PrefixTrie`, with `insert` and `longestPrefixOf`, and a run of insertions `inserts`

## Main results

* `TrieNode.holds_insert`: an insertion adds its word, and no other
* `TrieNode.walk_spec`: the walk finds the longest word on its way
* `longestPrefixOf_inserts`: answers and count after any insertions
-/

namespace Relay

/-- `_TrieNode`. -/
structure TrieNode where
  children : List (Char × TrieNode) := []
  isEnd : Bool := false

namespace TrieNode

/-- The path of the characters is there and ends at a mark. -/
def holds (node : TrieNode) : List Char → Bool
  | [] => node.isEnd
  | ch :: chars =>
    match node.children.lookup ch with
    | none => false
    | some child => child.holds chars

/-- The loop of `PrefixTrie.insert` from a node on, with the mark at its end, and whether the mark
was not there before. -/
def insert (node : TrieNode) : List Char → TrieNode × Bool
  | [] => ({ node with isEnd := true }, !node.isEnd)
  | ch :: chars =>
    let (child, fresh) := ((node.children.lookup ch).getD {}).insert chars
    ({ node with children := Dict.setEntries ch child node.children }, fresh)

/-- The loop of `PrefixTrie.longest_prefix_of` from a node on, with the path that led to it. -/
def walk (node : TrieNode) (path : List Char) (best : Option String) :
    List Char → Option String
  | [] => best
  | ch :: name =>
    match node.children.lookup ch with
    | none => best
    | some child =>
      child.walk (path ++ [ch]) (if child.isEnd then some (String.ofList (path ++ [ch])) else best)
        name

end TrieNode

/-- `PrefixTrie`. -/
structure PrefixTrie where
  root : TrieNode := {}
  count : ℤ := 0

namespace PrefixTrie

/-- `insert`. -/
def insert (trie : PrefixTrie) (pre : String) : Except RelayError PrefixTrie :=
  if pre = "" then
    .error (.invalid "an empty prefix matches everything, defeating specific rules")
  else
    let (root, fresh) := trie.root.insert pre.toList
    .ok { root, count := if fresh then trie.count + 1 else trie.count }

/-- `longest_prefix_of`. -/
def longestPrefixOf (trie : PrefixTrie) (name : String) : Option String :=
  trie.root.walk [] none name.toList

/-- Prefixes are inserted one after the other. -/
def inserts (trie : PrefixTrie) (prefixes : List String) : Except RelayError PrefixTrie :=
  prefixes.foldlM insert trie

end PrefixTrie

/-! ## The words of a tree -/

namespace TrieNode

theorem holds_nil (node : TrieNode) : node.holds [] = node.isEnd :=
  rfl

theorem holds_cons (node : TrieNode) (ch : Char) (chars : List Char) :
    node.holds (ch :: chars) = ((node.children.lookup ch).getD {}).holds chars := by
  rw [holds]
  split
  · rename_i hnone
    rw [hnone]
    cases chars <;> rfl
  · rename_i child hsome
    rw [hsome]
    rfl

/-- **An insertion** adds its word, and changes nothing about any other. -/
theorem holds_insert (node : TrieNode) (word other : List Char) :
    (node.insert word).1.holds other = true ↔ other = word ∨ node.holds other = true := by
  induction word generalizing node other with
  | nil =>
    cases other with
    | nil => simp [insert, holds_nil]
    | cons c other => simp [insert, holds_cons]
  | cons ch word ih =>
    cases other with
    | nil => simp [insert, holds_nil]
    | cons c other =>
      rw [holds_cons, holds_cons]
      simp only [insert, Dict.lookup_setEntries]
      rcases eq_or_ne c ch with rfl | hne
      · rw [if_pos rfl, Option.getD_some, ih, List.cons.injEq]
        simp
      · rw [if_neg hne, List.cons.injEq]
        simp [hne]

/-- The mark is fresh if the tree did not hold the word. -/
theorem snd_insert (node : TrieNode) (word : List Char) :
    (node.insert word).2 = !node.holds word := by
  induction word generalizing node with
  | nil => rfl
  | cons ch word ih =>
    rw [holds_cons]
    exact ih _

/-- The longest word at the start of a name: what a walk is about. -/
structure IsLongest (node : TrieNode) (name word : List Char) : Prop where
  starts : word <+: name
  holds : node.holds word = true
  le : ∀ other, other <+: name → node.holds other = true → other.length ≤ word.length

/-- The longest word from a child is the longest word from its parent. -/
theorem IsLongest.cons {node child : TrieNode} {ch : Char} {name word : List Char}
    (h : child.IsLongest name word)
    (hholds : ∀ word, node.holds (ch :: word) = child.holds word) :
    node.IsLongest (ch :: name) (ch :: word) := by
  refine ⟨List.cons_prefix_cons.mpr ⟨rfl, h.starts⟩, (hholds word).trans h.holds, ?_⟩
  intro other hpre hother
  rcases other with _ | ⟨c, other⟩
  · exact Nat.zero_le _
  · obtain ⟨rfl, hrest⟩ := List.cons_prefix_cons.mp hpre
    exact Nat.succ_le_succ (h.le other hrest (hholds other ▸ hother))

/-- Where no word goes on, a mark is the longest word. -/
theorem isLongest_nil {node : TrieNode} {name : List Char} (hend : node.isEnd = true)
    (hnone : ∀ word, word ≠ [] → word <+: name → node.holds word = false) :
    node.IsLongest name [] := by
  refine ⟨List.nil_prefix, hend, fun other hpre hother => ?_⟩
  rcases eq_or_ne other [] with rfl | hne
  · exact le_refl _
  · rw [hnone other hne hpre] at hother
    exact absurd hother Bool.false_ne_true

/-- **The walk** finds the longest word, and keeps the best that it came with if the node that it
starts from begins no other word of the name. -/
theorem walk_spec (node : TrieNode) (path : List Char) (best : Option String) (name : List Char) :
    (∃ word, word ≠ [] ∧ node.IsLongest name word ∧
      node.walk path best name = some (String.ofList (path ++ word))) ∨
    ((∀ word, word ≠ [] → word <+: name → node.holds word = false) ∧
      node.walk path best name = best) := by
  induction name generalizing node path best with
  | nil => exact Or.inr ⟨fun word hne hpre => absurd (List.prefix_nil.mp hpre) hne, rfl⟩
  | cons ch name ih =>
    cases hchild : node.children.lookup ch with
    | none =>
      refine Or.inr ⟨fun word hne hpre => ?_, by simp [walk, hchild]⟩
      obtain ⟨c, word, rfl⟩ := List.exists_cons_of_ne_nil hne
      obtain ⟨rfl, -⟩ := List.cons_prefix_cons.mp hpre
      simp [holds, hchild]
    | some child =>
      have hholds : ∀ word, node.holds (ch :: word) = child.holds word := fun word => by
        simp [holds, hchild]
      have hwalk : node.walk path best (ch :: name) = child.walk (path ++ [ch])
          (if child.isEnd then some (String.ofList (path ++ [ch])) else best) name := by
        simp [walk, hchild]
      rw [hwalk]
      rcases ih child (path ++ [ch])
          (if child.isEnd then some (String.ofList (path ++ [ch])) else best) with
        ⟨word, -, hlongest, hresult⟩ | ⟨hnone, hresult⟩
      · refine Or.inl ⟨ch :: word, List.cons_ne_nil _ _, hlongest.cons hholds, ?_⟩
        rw [hresult, List.append_assoc, List.singleton_append]
      · -- no word goes on beyond the child: its own mark decides
        rw [hresult]
        cases hend : child.isEnd with
        | true =>
          exact Or.inl ⟨[ch], List.cons_ne_nil _ _, (isLongest_nil hend hnone).cons hholds,
            if_pos rfl⟩
        | false =>
          refine Or.inr ⟨fun word hne hpre => ?_, if_neg Bool.false_ne_true⟩
          obtain ⟨c, word, rfl⟩ := List.exists_cons_of_ne_nil hne
          obtain ⟨rfl, hrest⟩ := List.cons_prefix_cons.mp hpre
          rw [hholds]
          rcases eq_or_ne word [] with rfl | hne
          · rw [holds_nil, hend]
          · exact hnone word hne hrest

end TrieNode

/-! ## The prefixes of a trie -/

namespace PrefixTrie

/-- A trie that holds prefixes, and counts them. -/
structure Represents (trie : PrefixTrie) (prefixes : List String) : Prop where
  nonempty : "" ∉ prefixes
  holds : ∀ word, trie.root.holds word = true ↔ String.ofList word ∈ prefixes
  count : trie.count = prefixes.toFinset.card

theorem represents_empty : Represents {} [] := by
  refine ⟨List.not_mem_nil, fun word => ?_, rfl⟩
  cases word <;> simp [TrieNode.holds]

/-- **An insertion** adds the prefix, and counts it if it is new. -/
theorem Represents.insert {trie : PrefixTrie} {prefixes : List String} {pre : String}
    (h : Represents trie prefixes) (hpre : pre ≠ "") :
    ∃ after, trie.insert pre = .ok after ∧ Represents after (prefixes ++ [pre]) := by
  rw [PrefixTrie.insert, if_neg hpre]
  refine ⟨_, rfl, ?_, fun word => ?_, ?_⟩
  · simpa using ⟨h.nonempty, hpre⟩
  · rw [TrieNode.holds_insert, h.holds, List.mem_append, List.mem_singleton, or_comm,
      ← String.toList_inj, String.toList_ofList]
  · have hfresh : (trie.root.insert pre.toList).2 = true ↔ pre ∉ prefixes := by
      rw [TrieNode.snd_insert, Bool.not_eq_true', ← Bool.not_eq_true, h.holds,
        String.ofList_toList]
    have hset : (prefixes ++ [pre]).toFinset = Insert.insert pre prefixes.toFinset := by
      ext other
      simp
    rw [hset]
    by_cases hmem : pre ∈ prefixes
    · rw [if_neg fun hnew => hfresh.mp hnew hmem,
        Finset.insert_eq_of_mem (List.mem_toFinset.mpr hmem), h.count]
    · rw [if_pos (hfresh.mpr hmem), Finset.card_insert_of_notMem (mt List.mem_toFinset.mp hmem),
        h.count]
      exact (Nat.cast_succ _).symm

/-- Insertions in a row. -/
theorem Represents.inserts {trie : PrefixTrie} {before prefixes : List String}
    (h : Represents trie before) (hne : "" ∉ prefixes) :
    ∃ after, trie.inserts prefixes = .ok after ∧ Represents after (before ++ prefixes) := by
  induction prefixes generalizing trie before with
  | nil => exact ⟨trie, rfl, by rwa [List.append_nil]⟩
  | cons pre prefixes ih =>
    obtain ⟨hpre, hne⟩ := List.ne_and_not_mem_of_not_mem_cons hne
    obtain ⟨next, hnext, hrep⟩ := h.insert hpre.symm
    obtain ⟨after, hafter, hrep⟩ := ih hrep hne
    refine ⟨after, ?_, ?_⟩
    · rw [PrefixTrie.inserts, List.foldlM_cons, hnext]
      exact hafter
    · rwa [List.append_assoc, List.singleton_append] at hrep

/-- A name's longest prefix among those that were inserted. -/
structure IsLongestPrefix (prefixes : List String) (name pre : String) : Prop where
  mem : pre ∈ prefixes
  starts : pre.toList <+: name.toList
  le : ∀ other ∈ prefixes, other.toList <+: name.toList → other.length ≤ pre.length

/-- What a trie answers. -/
theorem Represents.longestPrefixOf {trie : PrefixTrie} {prefixes : List String}
    (h : Represents trie prefixes) (name : String) :
    (∃ pre, trie.longestPrefixOf name = some pre ∧ IsLongestPrefix prefixes name pre) ∨
    (trie.longestPrefixOf name = none ∧ ∀ pre ∈ prefixes, ¬pre.toList <+: name.toList) := by
  rcases trie.root.walk_spec [] none name.toList with
    ⟨word, -, hlongest, hresult⟩ | ⟨hnone, hresult⟩
  · refine Or.inl ⟨String.ofList word, hresult, (h.holds word).mp hlongest.holds, ?_, ?_⟩
    · rw [String.toList_ofList]
      exact hlongest.starts
    · intro other hmem hpre
      have hle := hlongest.le other.toList hpre
        ((h.holds _).mpr (by rwa [String.ofList_toList]))
      rwa [String.length_ofList, ← String.length_toList]
  · refine Or.inr ⟨hresult, fun pre hmem hpre => ?_⟩
    have hne : pre.toList ≠ [] := fun hnil =>
      h.nonempty (String.toList_eq_nil_iff.mp hnil ▸ hmem)
    have hheld : trie.root.holds pre.toList = true :=
      (h.holds _).mpr (by rwa [String.ofList_toList])
    rw [hnone pre.toList hne hpre] at hheld
    exact absurd hheld Bool.false_ne_true

/-- **Answers after insertions.** The trie answers with the longest of the inserted prefixes that a
name starts with, with none if there is no such prefix, and counts the distinct ones. -/
theorem longestPrefixOf_inserts (prefixes : List String) (hne : ∀ pre ∈ prefixes, pre ≠ "") :
    ∃ trie, inserts {} prefixes = .ok trie ∧ trie.count = prefixes.toFinset.card ∧
      ∀ name,
        (∀ pre, trie.longestPrefixOf name = some pre ↔ IsLongestPrefix prefixes name pre) ∧
        (trie.longestPrefixOf name = none ↔ ∀ pre ∈ prefixes, ¬pre.toList <+: name.toList) := by
  obtain ⟨trie, hok, h⟩ := represents_empty.inserts fun hmem => hne "" hmem rfl
  rw [List.nil_append] at h
  refine ⟨trie, hok, h.count, fun name => ?_⟩
  rcases h.longestPrefixOf name with ⟨found, hfound, hlongest⟩ | ⟨hnone, hno⟩
  · rw [hfound]
    refine ⟨fun pre => ⟨fun heq => Option.some.inj heq ▸ hlongest, fun hpre => ?_⟩, ?_⟩
    · have hlength : found.length = pre.length :=
        le_antisymm (hpre.le found hlongest.mem hlongest.starts)
          (hlongest.le pre hpre.mem hpre.starts)
      have hchars : found.toList.length = pre.toList.length := by
        rw [String.length_toList, String.length_toList, hlength]
      have hsame : found.toList = pre.toList :=
        (List.prefix_of_prefix_length_le hlongest.starts hpre.starts hchars.le).eq_of_length hchars
      rw [String.toList_inj.mp hsame]
    · simpa using ⟨found, hlongest.mem, hlongest.starts⟩
  · rw [hnone]
    refine ⟨fun pre => ?_, iff_of_true rfl hno⟩
    exact iff_of_false (by simp) fun hpre => hno pre hpre.mem hpre.starts

/-- A prefix of a prefix, and the same prefix twice. -/
theorem nested_longestPrefixOf_inserts :
    ∃ trie, inserts {} ["orders-eu", "orders-", "orders-eu"] = .ok trie ∧ trie.count = 2 ∧
      trie.longestPrefixOf "orders-us" = some "orders-" ∧
      trie.longestPrefixOf "metrics" = none := by
  obtain ⟨trie, hok, hcount, hanswers⟩ :=
    longestPrefixOf_inserts ["orders-eu", "orders-", "orders-eu"] (by decide)
  refine ⟨trie, hok, hcount.trans (by decide), ?_, (hanswers "metrics").2.mpr (by decide)⟩
  exact ((hanswers "orders-us").1 "orders-").mpr ⟨by decide, by decide, by decide⟩

end PrefixTrie

end Relay
