import Mathlib.Algebra.Order.Ring.Int
import Relay.Errors
import Relay.Lib.Machine
import Relay.Lib.Updates

/-!
# Log-structured merge trees

Writes go to a table in memory. When the table is full it becomes a run, which never changes again,
and a read asks the table and then the runs, the newest first. A deleted key is remembered by a
tombstone, so that the value of an older run does not show through. Compaction merges all runs into
one and leaves the tombstones out: there is no older run left for them to cover.

The table and the runs are layers of updates, and a read finds what was last said of the key
whatever was flushed and compacted in between.

## Scope

The report on the fan-out of reads is left out.

## Main definitions

* `LSMTree`, with `put`, `delete`, `flush`, `get` and `compact`
* `LSMTree.view`: what the layers say of a key

## Main results

* `LSMTree.lsmTree_refinesMap`: reads find the last write, and compaction does not change them
-/

namespace Relay

/-- A tree that flushes its table once that holds so many keys. No value is a tombstone. -/
structure LSMTree where
  memtableLimit : ℤ
  memtable : Dict String (Option String) := ∅
  /-- The oldest comes first. -/
  runs : List (Dict String (Option String)) := []
  memtableLimit_pos : 1 ≤ memtableLimit

namespace LSMTree

/-- `flush`. -/
def flush (tree : LSMTree) : Except RelayError String × LSMTree :=
  if tree.memtable.entries = [] then
    (.error (.invalid "refusing to flush an empty memtable; it adds an empty run to scan"), tree)
  else
    (.ok s!"flushed a run; {tree.runs.length + 1} run(s) on disk",
      { tree with runs := tree.runs ++ [tree.memtable], memtable := ∅ })

/-- `put`. -/
def put (tree : LSMTree) (key value : String) : Except RelayError Unit × LSMTree :=
  let next := { tree with memtable := tree.memtable.set key (some value) }
  if next.memtableLimit ≤ next.memtable.entries.length then
    next.flush.map (fun answer => answer.map fun _ => ()) id
  else (.ok (), next)

/-- `delete`. -/
def delete (tree : LSMTree) (key : String) : LSMTree :=
  { tree with memtable := tree.memtable.set key none }

/-- `get`. -/
def get (tree : LSMTree) (key : String) : Except RelayError String :=
  let value :=
    match tree.memtable.get? key with
    | some value => some value
    | none => tree.runs.reverse.findSome? fun run => run.get? key
  match value with
  | some (some value) => .ok value
  | _ => .error (.missing s!"no live value for key '{key}'")

/-- `compact`. -/
def compact (tree : LSMTree) : String × LSMTree :=
  let merged := (tree.runs.foldl Dict.update ∅).filter fun _ value => value.isSome
  let runs := if merged.entries ≠ [] then [merged] else []
  (s!"compacted {tree.runs.length} run(s) into {runs.length}", { tree with runs := runs })

end LSMTree

/-! ## Runs of calls -/

/-- A call that changes a tree. -/
inductive LSMTreeCall where
  | put (key value : String)
  | delete (key : String)
  | flush
  | compact
  deriving DecidableEq

/-- What a call answers. -/
inductive LSMTreeAnswer where
  | put (answer : Except RelayError Unit)
  | deleted
  | flushed (answer : Except RelayError String)
  | compacted (report : String)

/-- What a call says of a key. -/
def LSMTreeCall.update : LSMTreeCall → Option (String × Option String)
  | .put key value => some (key, some value)
  | .delete key => some (key, none)
  | .flush => none
  | .compact => none

/-- The tree as a component. -/
def lsmTree : Machine LSMTree LSMTreeCall LSMTreeAnswer where
  step tree
    | .put key value => (tree.put key value).map .put id
    | .delete key => (.deleted, tree.delete key)
    | .flush => tree.flush.map .flushed id
    | .compact => tree.compact.map .compacted id

namespace LSMTree

/-- What the layers of a tree say of a key: its value, unless there is none or it is deleted. -/
def view (tree : LSMTree) (key : String) : Option String :=
  (newest (tree.runs ++ [tree.memtable]) key).join

/-- A new tree. -/
def init (memtableLimit : ℤ) (h : 1 ≤ memtableLimit) : LSMTree :=
  { memtableLimit := memtableLimit, memtableLimit_pos := h }

/-- A tree whose reads find what the calls said last: the value of the last put of a key, unless
another put or a delete of it came after. Compaction changes none of them. -/
structure RefinesMap (tree : LSMTree) (calls : List LSMTreeCall) : Prop where
  get (key : String) : tree.get key =
    match latest (calls.filterMap LSMTreeCall.update) key with
    | some value => .ok value
    | none => .error (.missing s!"no live value for key '{key}'")
  get_eq_ok_iff (key value : String) : tree.get key = .ok value ↔
    ∃ before after, calls.filterMap LSMTreeCall.update = before ++ (key, some value) :: after ∧
      ∀ u ∈ after, u.1 ≠ key
  get_compact (key : String) : tree.compact.2.get key = tree.get key

/-! ## What the layers say -/

theorem view_eq (tree : LSMTree) (key : String) :
    tree.view key = ((tree.memtable.get? key).or (newest tree.runs key)).join := by
  rw [view, newest_append_singleton]

/-- A read finds what the layers say. -/
theorem get_eq (tree : LSMTree) (key : String) :
    tree.get key =
      match tree.view key with
      | some value => .ok value
      | none => .error (.missing s!"no live value for key '{key}'") := by
  rw [view_eq, get]
  cases tree.memtable.get? key with
  | some value => cases value <;> rfl
  | none =>
    rw [Option.none_or, newest]
    rcases tree.runs.reverse.findSome? _ with _ | _ | value <;> rfl

/-- Flushing moves the newest layer, and does not change what the layers say. -/
theorem view_flush (tree : LSMTree) (key : String) : tree.flush.2.view key = tree.view key := by
  rw [flush]
  split
  · rfl
  · rw [view_eq]
    rfl

theorem view_set (tree : LSMTree) (key : String) (value : Option String) (k : String) :
    view { tree with memtable := tree.memtable.set key value } k =
      if k = key then value else tree.view k := by
  rw [view_eq, Dict.get?_set, view_eq]
  split
  · rfl
  · rfl

theorem view_put (tree : LSMTree) (key value k : String) :
    (tree.put key value).2.view k = if k = key then some value else tree.view k := by
  rw [put]
  split
  · exact (view_flush _ k).trans (tree.view_set key (some value) k)
  · exact tree.view_set key (some value) k

/-- Compaction leaves out tombstones, which have nothing left to cover. -/
theorem view_compact (tree : LSMTree) (key : String) : tree.compact.2.view key = tree.view key := by
  have hmerged : ((tree.runs.foldl Dict.update ∅).filter fun _ value => value.isSome).get? key =
      (newest tree.runs key).filter Option.isSome := by
    rw [Dict.get?_filter, Dict.get?_foldl_update]
  have hruns : newest tree.compact.2.runs key = (newest tree.runs key).filter Option.isSome := by
    rw [← hmerged]
    show newest (if _ then _ else _) key = _
    split
    · exact (newest_append_singleton [] _ key).trans (Option.or_none)
    · next hempty =>
      rw [Dict.get?, not_not.mp hempty]
      rfl
  rw [view_eq, view_eq, hruns]
  show ((tree.memtable.get? key).or _).join = _
  rcases tree.memtable.get? key with _ | value
  · rcases newest tree.runs key with _ | _ | value <;> rfl
  · rfl

/-- **One call.** -/
theorem view_step (tree : LSMTree) (call : LSMTreeCall) (k : String) :
    (lsmTree.step tree call).2.view k =
      call.update.elim (tree.view k) fun u => if k = u.1 then u.2 else tree.view k := by
  cases call with
  | put key value => exact tree.view_put key value k
  | delete key => exact tree.view_set key none k
  | flush => exact tree.view_flush k
  | compact => exact tree.view_compact k

/-- **Runs.** The layers say of each key what the calls said last. -/
theorem view_final (limit : ℤ) (h : 1 ≤ limit) (calls : List LSMTreeCall) (k : String) :
    (lsmTree.final (init limit h) calls).view k =
      latest (calls.filterMap LSMTreeCall.update) k := by
  induction calls using List.reverseRecOn with
  | nil => rfl
  | append_singleton calls call ih =>
    rw [lsmTree.final_append_singleton, view_step, ih, List.filterMap_append]
    cases hupdate : call.update with
    | none => simp [hupdate]
    | some u =>
      rw [List.filterMap_cons_some hupdate, List.filterMap_nil, latest_append_singleton]
      rfl

/-- A write never fails: the table is not empty when it is flushed. -/
theorem put_ok (tree : LSMTree) (key value : String) : (tree.put key value).1 = .ok () := by
  rw [put]
  split
  · next hfull =>
    rw [flush, if_neg]
    · rfl
    · intro hempty
      have hlen := tree.memtableLimit_pos.trans hfull
      rw [hempty] at hlen
      exact absurd hlen (by decide)
  · rfl

/-- **A tree refines a map.** -/
theorem lsmTree_refinesMap (limit : ℤ) (h : 1 ≤ limit) (calls : List LSMTreeCall) :
    RefinesMap (lsmTree.final (init limit h) calls) calls := by
  have hget (key : String) : (lsmTree.final (init limit h) calls).get key =
      match latest (calls.filterMap LSMTreeCall.update) key with
      | some value => .ok value
      | none => .error (.missing s!"no live value for key '{key}'") := by
    rw [get_eq, view_final]
  refine ⟨hget, fun key value => ?_, fun key => ?_⟩
  · rw [← latest_eq_some_iff, hget]
    cases latest (calls.filterMap LSMTreeCall.update) key with
    | some v => exact ⟨fun heq => congrArg some (Except.ok.inj heq),
        fun heq => congrArg Except.ok (Option.some.inj heq)⟩
    | none => exact iff_of_false (fun heq => by cases heq) (Option.some_ne_none value).symm
  · rw [get_eq, get_eq, view_compact]

/-- A key that is written, flushed, deleted and compacted away. -/
theorem lsmTree_refinesMap_deleted :
    RefinesMap (lsmTree.final (init 1 (by decide)) [.put "k" "v", .delete "k", .flush, .compact])
      [.put "k" "v", .delete "k", .flush, .compact] :=
  lsmTree_refinesMap 1 (by decide) _

end LSMTree

end Relay
