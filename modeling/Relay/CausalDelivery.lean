import Mathlib.Data.Finset.Dedup
import Mathlib.Data.Finset.Insert
import Mathlib.Order.WellFounded
import Mathlib.Data.Fintype.Order
import Relay.Lib.Dict
import Relay.Lib.Machine

/-!
# Causal delivery

A message arrives with the set of messages it depends on. It is released at once if these have been
delivered and buffered otherwise, and whatever is released may free buffered messages, which are
looked for in passes over the buffer until a pass frees nothing.

A pass walks over the entries the buffer had when the pass began, while it deletes from the buffer
and adds to the delivered set. `Releases` says what it does in the end, one freed message at a
time, and nothing below depends on the passes any more.

## Retransmission

The buffer is keyed by message, so a second copy of a buffered message changes nothing. Nothing
looks for a message among the delivered ones: a copy that arrives after its message was released
finds its dependencies delivered and is released again. `nodup_released_iff` says that this is the
only way to deliver a message twice.

## Scope

`force_deliver` is left out: it delivers nothing, and only refuses a message whose dependencies are
missing. So is the note on the size of the buffer.

## Main definitions

* `CausalDelivery`, with `accept`, `deliver` and the passes `sweep` and `settle`
* `causalDelivery`: the receiver as a component
* `released`: all messages that the calls of a run returned

## Main results

* `released_perm_and_buffer_eq_empty`: every message of a closed set without cycles is released,
  once and after its dependencies
* `nodup_released_iff`: when no message is released twice
-/

namespace Relay

/-- What a receiver has delivered, and what waits with the dependencies it waits for. -/
structure CausalDelivery (μ : Type*) where
  delivered : Finset μ := ∅
  buffer : Dict μ (Finset μ) := ∅

namespace CausalDelivery

variable {μ : Type*} [DecidableEq μ]

/-- `_deliverable`. -/
def Deliverable (s : CausalDelivery μ) (deps : Finset μ) : Prop := deps ⊆ s.delivered

instance (s : CausalDelivery μ) (deps : Finset μ) : Decidable (s.Deliverable deps) :=
  inferInstanceAs (Decidable (deps ⊆ s.delivered))

/-- A buffered message is delivered: `del self.buffer[msg]` and `self.delivered.add(msg)`. -/
def release (s : CausalDelivery μ) (msg : μ) : CausalDelivery μ where
  delivered := insert msg s.delivered
  buffer := s.buffer.erase msg

/-- One pass over the entries that the buffer had when the pass began. -/
def sweep (s : CausalDelivery μ) : List (μ × Finset μ) → List μ × CausalDelivery μ
  | [] => ([], s)
  | (msg, deps) :: items =>
    if s.Deliverable deps then
      let rest := (s.release msg).sweep items
      (msg :: rest.1, rest.2)
    else s.sweep items

/-! ## What passes do -/

/-- The messages are freed one after another, each with its dependencies delivered by then. -/
inductive Releases : CausalDelivery μ → List μ → CausalDelivery μ → Prop
  | nil (s : CausalDelivery μ) : Releases s [] s
  | cons {s s' : CausalDelivery μ} {msg : μ} {deps : Finset μ} {msgs : List μ}
      (buffered : s.buffer.get? msg = some deps) (ready : s.Deliverable deps)
      (rest : Releases (s.release msg) msgs s') : Releases s (msg :: msgs) s'

/-- No buffered message can be delivered. -/
def Quiet (s : CausalDelivery μ) : Prop :=
  ∀ msg deps, s.buffer.get? msg = some deps → ¬ s.Deliverable deps

variable {s s' s'' : CausalDelivery μ} {msgs msgs' : List μ}

theorem Releases.append (h : Releases s msgs s') (h' : Releases s' msgs' s'') :
    Releases s (msgs ++ msgs') s'' := by
  induction h with
  | nil => exact h'
  | cons buffered ready _ ih => exact .cons buffered ready (ih h')

/-- Freeing something shortens the buffer. -/
theorem Releases.length_le (h : Releases s msgs s') :
    s'.buffer.entries.length ≤ s.buffer.entries.length ∧
      (msgs ≠ [] → s'.buffer.entries.length < s.buffer.entries.length) := by
  induction h with
  | nil => exact ⟨le_rfl, fun h => absurd rfl h⟩
  | cons buffered _ _ ih =>
    have hlt := ih.1.trans_lt (Dict.length_erase_lt buffered)
    exact ⟨hlt.le, fun _ => hlt⟩

/-- A pass frees messages, if its items are entries of the buffer. -/
theorem releases_sweep {items : List (μ × Finset μ)} (hnodup : (items.map Prod.fst).Nodup)
    (hitems : ∀ e ∈ items, s.buffer.get? e.1 = some e.2) :
    Releases s (s.sweep items).1 (s.sweep items).2 := by
  induction items generalizing s with
  | nil => exact .nil s
  | cons e items ih =>
    obtain ⟨msg, deps⟩ := e
    rw [List.map_cons, List.nodup_cons] at hnodup
    have hmsg := hitems _ List.mem_cons_self
    rw [sweep]
    split
    · next hready =>
      refine .cons hmsg hready (ih hnodup.2 fun e he => ?_)
      -- the entries still to come are of other messages
      have hne : e.1 ≠ msg := fun heq => hnodup.1 (List.mem_map.mpr ⟨e, he, heq⟩)
      rw [release, Dict.get?_erase, if_neg hne]
      exact hitems e (List.mem_cons_of_mem _ he)
    · exact ih hnodup.2 fun e he => hitems e (List.mem_cons_of_mem _ he)

/-- A pass that frees nothing has seen nothing to free. -/
theorem sweep_eq_nil {items : List (μ × Finset μ)} (h : (s.sweep items).1 = []) :
    (s.sweep items).2 = s ∧ ∀ e ∈ items, ¬ s.Deliverable e.2 := by
  induction items with
  | nil => exact ⟨rfl, fun e he => absurd he List.not_mem_nil⟩
  | cons e items ih =>
    obtain ⟨msg, deps⟩ := e
    rw [sweep] at h ⊢
    split at h
    · cases h
    · next hready =>
      rw [if_neg hready]
      obtain ⟨hstate, hitems⟩ := ih h
      refine ⟨hstate, fun e he => ?_⟩
      rcases List.mem_cons.mp he with rfl | he
      · exact hready
      · exact hitems e he

theorem releases_sweep_entries (s : CausalDelivery μ) :
    Releases s (s.sweep s.buffer.entries).1 (s.sweep s.buffer.entries).2 :=
  releases_sweep s.buffer.nodup fun _ he => (Dict.mem_entries_iff _).mp he

/-- The loop of `_deliver`: passes until one frees nothing. -/
def settle (s : CausalDelivery μ) : List μ × CausalDelivery μ :=
  let pass := s.sweep s.buffer.entries
  if pass.1 = [] then pass
  else
    let rest := pass.2.settle
    (pass.1 ++ rest.1, rest.2)
termination_by s.buffer.entries.length
decreasing_by exact (releases_sweep_entries s).length_le.2 ‹_›

/-- `_deliver`. -/
def deliver (s : CausalDelivery μ) (message : μ) : List μ × CausalDelivery μ :=
  let rest := settle { s with delivered := insert message s.delivered }
  (message :: rest.1, rest.2)

/-- `accept`. -/
def accept (s : CausalDelivery μ) (message : μ) (deps : Finset μ) : List μ × CausalDelivery μ :=
  if s.Deliverable deps then s.deliver message
  else ([], { s with buffer := s.buffer.set message deps })

/-- The passes free messages until none is left to free. -/
theorem settle_spec (s : CausalDelivery μ) :
    Releases s s.settle.1 s.settle.2 ∧ s.settle.2.Quiet := by
  induction hn : s.buffer.entries.length using Nat.strong_induction_on generalizing s with
  | _ n ih =>
    subst hn
    rw [settle]
    simp only
    split
    · next hnil =>
      obtain ⟨hstate, hquiet⟩ := sweep_eq_nil hnil
      refine ⟨releases_sweep_entries s, ?_⟩
      rw [hstate]
      exact fun msg deps h => hquiet (msg, deps) ((Dict.mem_entries_iff _).mpr h)
    · next hne =>
      have hpass := releases_sweep_entries s
      obtain ⟨hrest, hquiet⟩ := ih _ (hpass.length_le.2 hne) _ rfl
      exact ⟨hpass.append hrest, hquiet⟩

/-- Nothing is freed from an empty buffer. -/
theorem settle_empty (delivered : Finset μ) :
    settle { delivered } = ([], { delivered : CausalDelivery μ }) := by
  rw [settle]
  rfl

/-- What a call does: it delivers the message and frees what it can, or buffers the message. -/
theorem accept_cases (s : CausalDelivery μ) (message : μ) (deps : Finset μ) :
    (s.Deliverable deps ∧ ∃ msgs, (s.accept message deps).1 = message :: msgs ∧
        Releases { s with delivered := insert message s.delivered } msgs
          (s.accept message deps).2 ∧
        (s.accept message deps).2.Quiet) ∨
      (¬ s.Deliverable deps ∧
        s.accept message deps = ([], { s with buffer := s.buffer.set message deps })) := by
  rw [accept]
  split
  · next hready =>
    obtain ⟨hreleases, hquiet⟩ := settle_spec { s with delivered := insert message s.delivered }
    exact Or.inl ⟨hready, _, rfl, hreleases, hquiet⟩
  · next hready => exact Or.inr ⟨hready, rfl⟩

/-! ## What is delivered -/

/-- Freeing messages loses none. -/
theorem Releases.known_iff (h : Releases s msgs s') (m : μ) :
    (m ∈ s'.delivered ∨ ∃ deps, s'.buffer.get? m = some deps) ↔
      m ∈ s.delivered ∨ ∃ deps, s.buffer.get? m = some deps := by
  induction h with
  | nil => exact Iff.rfl
  | @cons s _ msg deps _ buffered _ _ ih =>
    rw [ih, release, Finset.mem_insert, Dict.get?_erase]
    by_cases hm : m = msg
    · subst hm
      exact iff_of_true (Or.inl (Or.inl rfl)) (Or.inr ⟨deps, buffered⟩)
    · simp [hm]

/-- The list holds what has been delivered, every message after its dependencies, and the buffer
holds messages with theirs. -/
structure IsLog (deps : μ → Finset μ) (log : List μ) (s : CausalDelivery μ) : Prop where
  mem_iff : ∀ m, m ∈ s.delivered ↔ m ∈ log
  buffered : ∀ m ds, s.buffer.get? m = some ds → ds = deps m
  justified : Justified (fun past m => ∀ d ∈ deps m, d ∈ past) log

/-- No message has been delivered twice, or is buffered as well. -/
structure Once (log : List μ) (s : CausalDelivery μ) : Prop where
  nodup : log.Nodup
  not_mem : ∀ m ds, s.buffer.get? m = some ds → m ∉ log

variable {deps : μ → Finset μ} {log : List μ} {m : μ}

theorem IsLog.deliverable_iff (h : IsLog deps log s) :
    s.Deliverable (deps m) ↔ ∀ d ∈ deps m, d ∈ log := by
  rw [Deliverable, Finset.subset_iff]
  exact forall_congr' fun d => imp_congr_right fun _ => h.mem_iff d

/-- What has been delivered can be delivered again. -/
theorem IsLog.deliverable_of_mem (h : IsLog deps log s) (hm : m ∈ s.delivered) :
    s.Deliverable (deps m) := by
  rw [h.deliverable_iff]
  obtain ⟨past, future, rfl⟩ := List.append_of_mem ((h.mem_iff m).mp hm)
  exact fun d hd => List.mem_append_left _ (h.justified past m future rfl d hd)

/-- One more message, whose dependencies have been delivered. -/
theorem IsLog.append (h : IsLog deps log s) (hready : s.Deliverable (deps m))
    {buffer : Dict μ (Finset μ)} (hbuffer : ∀ m ds, buffer.get? m = some ds → ds = deps m) :
    IsLog deps (log ++ [m]) { delivered := insert m s.delivered, buffer } where
  mem_iff k := by
    rw [Finset.mem_insert, List.mem_append, List.mem_singleton, h.mem_iff, or_comm]
  buffered := hbuffer
  justified := justified_append_singleton.mpr ⟨h.justified, h.deliverable_iff.mp hready⟩

theorem IsLog.releases (h : IsLog deps log s) (hs : Releases s msgs s') :
    IsLog deps (log ++ msgs) s' := by
  induction hs generalizing log with
  | nil => rwa [List.append_nil]
  | @cons s _ msg ds msgs buffered ready _ ih =>
    rw [h.buffered msg ds buffered] at ready
    rw [List.append_cons]
    exact ih (h.append ready (Dict.forall_get?_erase fun k es _ hk => h.buffered k es hk))

theorem Once.releases (h : Once log s) (hs : Releases s msgs s') : Once (log ++ msgs) s' := by
  induction hs generalizing log with
  | nil => rwa [List.append_nil]
  | @cons s _ msg ds msgs buffered _ _ ih =>
    rw [List.append_cons]
    refine ih ⟨List.nodup_append_comm.mp (List.nodup_cons.mpr ⟨h.not_mem _ _ buffered, h.nodup⟩),
      Dict.forall_get?_erase fun k es hne hk => ?_⟩
    rw [List.mem_append, List.mem_singleton, not_or]
    exact ⟨h.not_mem k es hk, hne⟩

end CausalDelivery

/-! ## Runs -/

open CausalDelivery

section Runs

variable {μ : Type*} [DecidableEq μ]

/-- The receiver, where `deps` are the dependencies that a message is sent with. A call is the
arrival of a message. -/
def causalDelivery (deps : μ → Finset μ) : Machine (CausalDelivery μ) μ (List μ) where
  step s message := s.accept message (deps message)

/-- All messages that the calls of a run returned, in order. -/
def released (deps : μ → Finset μ) (messages : List μ) : List μ :=
  ((causalDelivery deps).trace {} messages).flatMap Prod.snd

/-- The receiver after a run. -/
def receiver (deps : μ → Finset μ) (messages : List μ) : CausalDelivery μ :=
  (causalDelivery deps).final {} messages

variable {deps : μ → Finset μ}

/-- What holds after any calls whatsoever: the answers are a log, every message that arrived is
delivered or buffered, and nothing buffered can be delivered. -/
structure Accounts (deps : μ → Finset μ) (past : List (μ × List μ)) (s : CausalDelivery μ) :
    Prop where
  isLog : IsLog deps (past.flatMap Prod.snd) s
  mem_iff : ∀ m, m ∈ past.map Prod.fst ↔ m ∈ s.delivered ∨ ∃ ds, s.buffer.get? m = some ds
  quiet : s.Quiet

theorem accounts_step {past : List (μ × List μ)} {s : CausalDelivery μ} (h : Accounts deps past s)
    (m : μ) : Accounts deps (past ++ [(m, ((causalDelivery deps).step s m).1)])
      ((causalDelivery deps).step s m).2 := by
  show Accounts deps (past ++ [(m, (s.accept m (deps m)).1)]) (s.accept m (deps m)).2
  rcases accept_cases s m (deps m) with ⟨hready, msgs, hanswer, hreleases, hquiet⟩ | ⟨hready, heq⟩
  · refine ⟨?_, fun k => ?_, hquiet⟩
    · rw [List.flatMap_append, List.flatMap_singleton, hanswer, List.append_cons]
      exact (h.isLog.append hready h.isLog.buffered).releases hreleases
    · rw [hreleases.known_iff, Finset.mem_insert, or_assoc, ← h.mem_iff, List.map_append,
        List.mem_append, or_comm]
      simp
  · rw [heq]
    have hlog := h.isLog
    refine ⟨⟨?_, ?_, ?_⟩, fun k => ?_, ?_⟩
    · simpa using hlog.mem_iff
    · exact Dict.forall_get?_set rfl fun k ds _ hk => hlog.buffered k ds hk
    · simpa using hlog.justified
    · rw [List.map_append, List.mem_append, h.mem_iff, Dict.get?_set]
      by_cases hkm : k = m <;> simp [hkm]
    · exact Dict.forall_get?_set hready fun k ds _ hk => h.quiet k ds hk

theorem accounts_run (deps : μ → Finset μ) (messages : List μ) :
    Accounts deps ((causalDelivery deps).trace {} messages) (receiver deps messages) := by
  refine Machine.trace_always (P := Accounts deps) ⟨⟨by simp, ?_, justified_nil _⟩, ?_, ?_⟩
    (fun past s m h => accounts_step h m) messages
  · intro m ds h
    cases h
  · simp [Dict.get?_empty]
  · intro m ds h
    cases h

/-- A message that has not been delivered is not delivered twice. -/
theorem once_step {past : List (μ × List μ)} {s : CausalDelivery μ} (h : Accounts deps past s)
    (hs : Once (past.flatMap Prod.snd) s) {m : μ} (hm : m ∉ s.delivered) :
    Once ((past ++ [(m, ((causalDelivery deps).step s m).1)]).flatMap Prod.snd)
      ((causalDelivery deps).step s m).2 := by
  show Once ((past ++ [(m, (s.accept m (deps m)).1)]).flatMap Prod.snd) (s.accept m (deps m)).2
  have hlog : m ∉ past.flatMap Prod.snd := (h.isLog.mem_iff m).not.mp hm
  rw [List.flatMap_append, List.flatMap_singleton]
  rcases accept_cases s m (deps m) with ⟨hready, msgs, hanswer, hreleases, -⟩ | ⟨-, heq⟩
  · rw [hanswer, List.append_cons]
    refine Once.releases ⟨List.nodup_append_comm.mp (List.nodup_cons.mpr ⟨hlog, hs.nodup⟩),
      fun k ds hk => ?_⟩ hreleases
    rw [List.mem_append, List.mem_singleton, not_or]
    refine ⟨hs.not_mem k ds hk, ?_⟩
    -- a buffered copy would have been free to go before this call
    rintro rfl
    exact h.quiet k ds hk (h.isLog.buffered k ds hk ▸ hready)
  · rw [heq, List.append_nil]
    exact ⟨hs.nodup, Dict.forall_get?_set hlog fun k ds _ hk => hs.not_mem k ds hk⟩

theorem once_init (deps : μ → Finset μ) : Accounts deps [] {} ∧ Once ([] : List μ) {} := by
  refine ⟨accounts_run deps [], List.nodup_nil, ?_⟩
  intro m ds h
  cases h

theorem once_run {messages : List μ}
    (h : (causalDelivery deps).Guarded (fun s m => m ∉ s.delivered) {} messages) :
    Once (released deps messages) (receiver deps messages) :=
  (Machine.trace_induction
    (P := fun past s => Accounts deps past s ∧ Once (past.flatMap Prod.snd) s) (once_init deps)
    (fun _ _ m hs hm => ⟨accounts_step hs.1 m, once_step hs.1 hs.2 hm⟩) h).2

/-- **Retransmission.** Whatever arrives, in whatever order and however often, no message is
released twice exactly when no message arrives again after it was delivered. -/
theorem nodup_released_iff (deps : μ → Finset μ) (messages : List μ) :
    (released deps messages).Nodup ↔
      (causalDelivery deps).Guarded (fun s m => m ∉ s.delivered) {} messages := by
  refine (Machine.guarded_iff_trace
    (P := fun past s => Accounts deps past s ∧ Once (past.flatMap Prod.snd) s)
    (Q := fun past => (past.flatMap Prod.snd).Nodup) (once_init deps) List.nodup_nil
    ?_ ?_ ?_).symm
  · intro past e h
    rw [List.flatMap_append] at h
    exact h.of_append_left
  · rintro past s m ⟨h, hs⟩
    refine ⟨fun hm => (once_step h hs hm).nodup, fun hnodup hm => ?_⟩
    rw [List.flatMap_append, List.flatMap_singleton] at hnodup
    -- the copy finds its dependencies delivered
    rcases accept_cases s m (deps m) with ⟨-, msgs, hanswer, -, -⟩ | ⟨hready, -⟩
    · have hanswer : ((causalDelivery deps).step s m).1 = m :: msgs := hanswer
      rw [hanswer, List.nodup_append] at hnodup
      exact hnodup.2.2 m ((h.isLog.mem_iff m).mp hm) m List.mem_cons_self rfl
    · exact hready (h.isLog.deliverable_of_mem hm)
  · rintro past s m ⟨h, hs⟩ hm
    exact ⟨accounts_step h m, once_step h hs hm⟩

/-- A message without dependencies arrives twice, and is released twice. -/
theorem released_retransmission :
    released (fun _ : String => ∅) ["m1", "m1"] = ["m1", "m1"] ∧
      ¬ (released (fun _ : String => ∅) ["m1", "m1"]).Nodup := by
  have h : released (fun _ : String => ∅) ["m1", "m1"] = ["m1", "m1"] := by
    simp [released, causalDelivery, accept, Deliverable, deliver, settle_empty]
  rw [h]
  exact ⟨rfl, by decide⟩

/-- Messages that arrive once arrive before they are delivered. -/
theorem guarded_of_nodup {order : List μ} (h : order.Nodup) :
    (causalDelivery deps).Guarded (fun s m => m ∉ s.delivered) {} order := by
  rw [Machine.guarded_iff_justified]
  rintro past m future rfl hm
  have hpast := ((accounts_run deps past).mem_iff m).mpr (Or.inl hm)
  rw [Machine.map_fst_trace] at hpast
  rw [List.nodup_append] at h
  exact h.2.2 m hpast m List.mem_cons_self rfl

omit [DecidableEq μ] in
/-- Of finitely many messages without a cycle of dependencies, one depends on none of the
others. -/
theorem exists_forall_deps_not_mem {M : Finset μ}
    (hacyclic : ∀ m ∈ M, ¬ Relation.TransGen (fun a b => a ∈ deps b) m m) {B : Set μ}
    (hB : B ⊆ M) (hne : B.Nonempty) : ∃ m ∈ B, ∀ d ∈ deps m, d ∉ B := by
  let r : M → M → Prop := fun a b => Relation.TransGen (fun a b => a ∈ deps b) a.val b.val
  have htrans : IsTrans M r := ⟨fun _ _ _ => Relation.TransGen.trans⟩
  have hirrefl : Std.Irrefl r := ⟨fun a => hacyclic a.val a.property⟩
  have hwf := Finite.wellFounded_of_trans_of_irrefl r
  obtain ⟨m, hm⟩ := hne
  obtain ⟨least, hleast, hmin⟩ := hwf.has_min {a : M | a.val ∈ B} ⟨⟨m, hB hm⟩, hm⟩
  exact ⟨least, hleast, fun d hd hdB => hmin ⟨d, hB hdB⟩ hdB (Relation.TransGen.single hd)⟩

/-- **Causal delivery is complete.** Let the messages of a finite set have their dependencies in the
set, without a cycle. In whatever order they arrive, each once, all of them are released, each once
and after its dependencies, nothing stays in the buffer, and after every call no buffered message
has its dependencies delivered. -/
theorem released_perm_and_buffer_eq_empty (deps : μ → Finset μ) (M : Finset μ)
    (hclosed : ∀ m ∈ M, deps m ⊆ M)
    (hacyclic : ∀ m ∈ M, ¬ Relation.TransGen (fun a b => a ∈ deps b) m m) (order : List μ)
    (hnodup : order.Nodup) (horder : ∀ m, m ∈ order ↔ m ∈ M) :
    (released deps order).Perm order ∧
      Justified (fun past m => ∀ d ∈ deps m, d ∈ past) (released deps order) ∧
      (receiver deps order).buffer = ∅ ∧
      ∀ past, past <+: order → ∀ m ds, (receiver deps past).buffer.get? m = some ds →
        ¬ ds ⊆ (receiver deps past).delivered := by
  have h := accounts_run deps order
  have harrived : ∀ m, m ∈ order ↔ m ∈ (receiver deps order).delivered ∨
      ∃ ds, (receiver deps order).buffer.get? m = some ds := by
    intro m
    rw [← h.mem_iff, Machine.map_fst_trace]
  have hempty : ∀ m, (receiver deps order).buffer.get? m = none := by
    by_contra hsome
    simp only [← Option.not_isSome_iff_eq_none, not_forall, not_not] at hsome
    -- a buffered message that depends on no buffered one is ready
    obtain ⟨m, hm, hfree⟩ := exists_forall_deps_not_mem hacyclic
      (B := {m | ((receiver deps order).buffer.get? m).isSome})
      (fun m hm => (horder m).mp ((harrived m).mpr (Or.inr (Option.isSome_iff_exists.mp hm))))
      hsome
    obtain ⟨ds, hds⟩ := Option.isSome_iff_exists.mp hm
    have hmM := (horder m).mp ((harrived m).mpr (Or.inr ⟨ds, hds⟩))
    refine h.quiet m ds hds fun d hd => ?_
    rw [h.isLog.buffered m ds hds] at hd
    rcases (harrived d).mp ((horder d).mpr (hclosed m hmM hd)) with hdelivered | hbuffered
    · exact hdelivered
    · exact absurd (Option.isSome_iff_exists.mpr hbuffered) (hfree d hd)
  refine ⟨?_, h.isLog.justified, Dict.eq_empty_of_forall_get? hempty,
    fun past _ => (accounts_run deps past).quiet⟩
  refine (List.perm_ext_iff_of_nodup (once_run (guarded_of_nodup hnodup)).nodup hnodup).mpr
    fun m => ?_
  rw [harrived, released, ← h.isLog.mem_iff]
  simp [hempty]

/-- Three messages, each of which depends on all smaller ones, arrive from the last to the
first. -/
theorem released_range :
    (released Finset.range [2, 1, 0]).Perm [2, 1, 0] ∧
      (receiver Finset.range [2, 1, 0]).buffer = ∅ := by
  have hlt : ∀ a b : ℕ, Relation.TransGen (fun a b => a ∈ Finset.range b) a b → a < b := by
    intro a b h
    induction h with
    | single h => exact Finset.mem_range.mp h
    | tail _ h ih => exact ih.trans (Finset.mem_range.mp h)
  have h := released_perm_and_buffer_eq_empty Finset.range {0, 1, 2} (by decide)
    (fun m _ h => lt_irrefl m (hlt m m h)) [2, 1, 0] (by decide)
    (fun m => by simp only [List.mem_cons, Finset.mem_insert, Finset.mem_singleton]; grind)
  exact ⟨h.1, h.2.2.1⟩

end Runs

end Relay
