import Mathlib.Data.List.Induction
import Mathlib.Data.Nat.Notation
import Relay.Lib.Machine

/-!
# Decoders that are fed in chunks

A stream arrives in chunks, cut anywhere. A decoder keeps what it has not decoded in a buffer, adds
each chunk to it, and carves items off the front until the buffer does not hold a whole one, or
holds something that it refuses.

One look at the front of the buffer is a `Round`. A `Carver` is a look whose answer, once it is an
item or a refusal, does not change when more bytes arrive. That is all that is needed for cuts not
to matter: carving a stream is carving a first part of it, and then what that left over together
with the rest (`carve_append`).

## Refusals

A refusal ends the call that finds it. The items carved earlier in that call are not in its answer;
what has been handed over is what the calls before it answered. `handed_answers` says what that is:
the items of the longest beginning of the chunks that is not refused.

## Main definitions

* `Carver`, with `Carver.carve`: all items at the front of a buffer, a refusal if there is one, and
  the bytes left over
* `Carver.feed`: one chunk
* `Carver.answers`, `Carver.leftover`: feeding chunks one after another
* `handed`: the items in the answers up to the first refusal

## Main results

* `Carver.carve_append`: how carving composes
* `Carver.answers_of_error_eq_none`: a stream that is not refused gives its items, however it is cut
* `Carver.handed_answers`: what is handed over of any stream
-/

namespace Relay

/-- What a look at the front of a buffer finds: too few bytes, something to refuse, or an item and
the bytes behind it. -/
inductive Round (β α ε : Type*) where
  | more
  | refuse (error : ε)
  | item (a : α) (rest : List β)

/-- A look at the front of a buffer whose findings more bytes do not change. -/
structure Carver (β α ε : Type*) where
  round : List β → Round β α ε
  round_nil : round [] = .more
  length_lt : ∀ {b a rest}, round b = .item a rest → rest.length < b.length
  item_append : ∀ {b a rest}, round b = .item a rest → ∀ c, round (b ++ c) = .item a (rest ++ c)
  refuse_append : ∀ {b error}, round b = .refuse error → ∀ c, round (b ++ c) = .refuse error

/-- What is carved off a buffer. -/
structure Carved (β α ε : Type*) where
  items : List α
  error : Option ε
  rest : List β

namespace Carver

variable {β α ε : Type*}

/-- Carve items until there is no whole one left, or something to refuse. -/
def carve (d : Carver β α ε) (b : List β) : Carved β α ε :=
  match _h : d.round b with
  | .more => { items := [], error := none, rest := b }
  | .refuse error => { items := [], error := some error, rest := b }
  | .item a rest =>
    let carved := d.carve rest
    { items := a :: carved.items, error := carved.error, rest := carved.rest }
termination_by b.length
decreasing_by exact d.length_lt _h

variable {d : Carver β α ε} {b c : List β}

theorem carve_of_more (h : d.round b = .more) : d.carve b = ⟨[], none, b⟩ := by
  rw [carve]
  split <;> simp_all

theorem carve_of_refuse {error : ε} (h : d.round b = .refuse error) :
    d.carve b = ⟨[], some error, b⟩ := by
  rw [carve]
  split <;> simp_all

theorem carve_of_item {a : α} {rest : List β} (h : d.round b = .item a rest) :
    d.carve b = ⟨a :: (d.carve rest).items, (d.carve rest).error, (d.carve rest).rest⟩ := by
  rw [carve]
  split <;> simp_all

/-- **Carving composes.** What is not refused at first is carved the same when more bytes follow,
and the rest goes on from what was left over. -/
theorem carve_append (h : (d.carve b).error = none) (c : List β) :
    d.carve (b ++ c) = ⟨(d.carve b).items ++ (d.carve ((d.carve b).rest ++ c)).items,
      (d.carve ((d.carve b).rest ++ c)).error, (d.carve ((d.carve b).rest ++ c)).rest⟩ := by
  induction b using Carver.carve.induct d with
  | case1 b hround => rw [carve_of_more hround, List.nil_append]
  | case2 b error hround =>
    rw [carve_of_refuse hround] at h
    cases h
  | case3 b a rest hround ih =>
    rw [carve_of_item hround] at h
    rw [carve_of_item (d.item_append hround c), carve_of_item hround, ih h]
    rfl

/-- What is refused stays refused. -/
theorem carve_append_of_error {error : ε} (h : (d.carve b).error = some error) (c : List β) :
    d.carve (b ++ c) = ⟨(d.carve b).items, some error, (d.carve b).rest ++ c⟩ := by
  induction b using Carver.carve.induct d with
  | case1 b hround =>
    rw [carve_of_more hround] at h
    cases h
  | case2 b error' hround =>
    rw [carve_of_refuse hround] at h ⊢
    rw [carve_of_refuse (d.refuse_append hround c), ← h]
  | case3 b a rest hround ih =>
    rw [carve_of_item hround] at h
    rw [carve_of_item (d.item_append hround c), carve_of_item hround, ih h]

theorem error_eq_none_of_append (h : (d.carve (b ++ c)).error = none) :
    (d.carve b).error = none := by
  cases herror : (d.carve b).error with
  | none => rfl
  | some error =>
    rw [carve_append_of_error herror c] at h
    cases h

/-- More bytes give no fewer items. -/
theorem items_isPrefix (d : Carver β α ε) (b c : List β) :
    (d.carve b).items <+: (d.carve (b ++ c)).items := by
  cases herror : (d.carve b).error with
  | none =>
    rw [carve_append herror c]
    exact List.prefix_append _ _
  | some error =>
    have hitems := congrArg Carved.items (carve_append_of_error herror c)
    exact hitems.symm ▸ List.prefix_rfl

/-! ### Feeding chunks -/

variable (d)

/-- Add a chunk to the buffer and carve. A refusal is answered without the items that were carved
before it. -/
def feed (buffer chunk : List β) : Except ε (List α) × List β :=
  let carved := d.carve (buffer ++ chunk)
  match carved.error with
  | none => (.ok carved.items, carved.rest)
  | some error => (.error error, carved.rest)

/-- The decoder as a component whose state is the buffer. -/
def machine : Machine (List β) (List β) (Except ε (List α)) where
  step := d.feed

/-- The answers to chunks that are fed one after another. -/
def answers (chunks : List (List β)) : List (Except ε (List α)) :=
  (d.machine.trace [] chunks).map Prod.snd

/-- The buffer after the chunks. -/
def leftover (chunks : List (List β)) : List β := d.machine.final [] chunks

end Carver

/-- The items in the answers, up to the first refusal. -/
def handed {α ε : Type*} : List (Except ε (List α)) → List α
  | [] => []
  | .ok items :: answers => items ++ handed answers
  | .error _ :: _ => []

theorem handed_map_ok_append {α ε : Type*} (items : List (List α))
    (answers : List (Except ε (List α))) :
    handed (items.map .ok ++ answers) = items.flatten ++ handed answers := by
  induction items with
  | nil => rfl
  | cons first items ih =>
    rw [List.map_cons, List.cons_append, handed, ih, List.flatten_cons, List.append_assoc]

namespace Carver

variable {β α ε : Type*} {d : Carver β α ε}

/-- A chunk that is not refused, after chunks that were not refused. -/
theorem feed_of_error_eq_none {buffer chunk : List β}
    (h : (d.carve (buffer ++ chunk)).error = none) :
    d.feed buffer chunk =
      (.ok (d.carve (buffer ++ chunk)).items, (d.carve (buffer ++ chunk)).rest) := by
  simp only [feed, h]

theorem feed_of_error_eq_some {buffer chunk : List β} {error : ε}
    (h : (d.carve (buffer ++ chunk)).error = some error) :
    d.feed buffer chunk = (.error error, (d.carve (buffer ++ chunk)).rest) := by
  simp only [feed, h]

/-- **Cuts do not matter** to a stream that is not refused: no chunk of it is refused, the answers
taken together are the items of the stream, and what is left over is left over of the stream. -/
theorem answers_of_error_eq_none {chunks : List (List β)}
    (h : (d.carve chunks.flatten).error = none) :
    (∃ items : List (List α), d.answers chunks = items.map .ok ∧
        items.flatten = (d.carve chunks.flatten).items) ∧
      d.leftover chunks = (d.carve chunks.flatten).rest := by
  induction chunks using List.reverseRecOn with
  | nil =>
    rw [List.flatten_nil, carve_of_more d.round_nil]
    exact ⟨⟨[], rfl, rfl⟩, rfl⟩
  | append_singleton chunks chunk ih =>
    rw [List.flatten_append, List.flatten_singleton] at h ⊢
    have hpast := error_eq_none_of_append h
    obtain ⟨⟨items, hanswers, hitems⟩, hleftover⟩ := ih hpast
    rw [carve_append hpast] at h ⊢
    rw [← hleftover] at h ⊢
    have hfeed := feed_of_error_eq_none h
    refine ⟨⟨items ++ [(d.carve (d.leftover chunks ++ chunk)).items], ?_, ?_⟩, ?_⟩
    · rw [answers, Machine.trace_append, List.map_append, ← answers, hanswers, List.map_append]
      exact congrArg (fun answer => _ ++ [answer]) (congrArg Prod.fst hfeed)
    · rw [List.flatten_append, List.flatten_singleton, hitems]
    · rw [leftover, Machine.final_append]
      exact congrArg Prod.snd hfeed

/-- Chunks have a longest beginning that is not refused. -/
theorem exists_longest_unrefused (d : Carver β α ε) (chunks : List (List β)) :
    ∃ past rest, chunks = past ++ rest ∧ (d.carve past.flatten).error = none ∧
      ∀ chunk rest', rest = chunk :: rest' →
        ∃ error, (d.carve (past.flatten ++ chunk)).error = some error := by
  induction chunks using List.reverseRecOn with
  | nil =>
    refine ⟨[], [], rfl, ?_, fun chunk rest' h => by cases h⟩
    rw [List.flatten_nil, carve_of_more d.round_nil]
  | append_singleton chunks last ih =>
    obtain ⟨past, rest, rfl, hpast, hnext⟩ := ih
    cases rest with
    | cons chunk rest =>
      refine ⟨past, chunk :: (rest ++ [last]), by simp, hpast, fun chunk' rest' h => ?_⟩
      obtain ⟨rfl, -⟩ := List.cons.inj h
      exact hnext chunk rest rfl
    | nil =>
      rw [List.append_nil]
      cases herror : (d.carve (past.flatten ++ last)).error with
      | none =>
        refine ⟨past ++ [last], [], by simp, ?_, fun chunk rest' h => by cases h⟩
        rwa [List.flatten_append, List.flatten_singleton]
      | some error =>
        refine ⟨past, [last], rfl, hpast, fun chunk rest' h => ?_⟩
        obtain ⟨rfl, -⟩ := List.cons.inj h
        exact ⟨error, herror⟩

/-- **What is handed over** of any stream are the items of the longest beginning of its chunks that
is not refused. -/
theorem handed_answers (d : Carver β α ε) (chunks : List (List β)) :
    ∃ past rest, chunks = past ++ rest ∧ (d.carve past.flatten).error = none ∧
      (∀ chunk rest', rest = chunk :: rest' →
        ∃ error, (d.carve (past.flatten ++ chunk)).error = some error) ∧
      handed (d.answers chunks) = (d.carve past.flatten).items := by
  obtain ⟨past, rest, rfl, hpast, hnext⟩ := d.exists_longest_unrefused chunks
  refine ⟨past, rest, rfl, hpast, hnext, ?_⟩
  obtain ⟨⟨items, hanswers, hitems⟩, hleftover⟩ := answers_of_error_eq_none hpast
  rw [answers, Machine.trace_append, List.map_append, ← answers, hanswers, handed_map_ok_append,
    hitems]
  cases rest with
  | nil => exact List.append_nil _
  | cons chunk rest =>
    -- the next chunk is refused, and nothing after it counts
    obtain ⟨error, herror⟩ := hnext chunk rest rfl
    have herror : (d.carve (d.leftover past ++ chunk)).error = some error := by
      rw [carve_append hpast, ← hleftover] at herror
      exact herror
    have hstep : (d.machine.step (d.machine.final [] past) chunk).1 = .error error :=
      congrArg Prod.fst (feed_of_error_eq_some herror)
    rw [Machine.trace_cons, List.map_cons, hstep]
    exact List.append_nil _

end Carver

end Relay
