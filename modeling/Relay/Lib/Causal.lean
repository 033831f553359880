import Mathlib.Algebra.Order.BigOperators.Group.Finset
import Mathlib.Algebra.Order.Ring.Int
import Mathlib.Data.Finset.Card
import Mathlib.Data.List.Induction
import Mathlib.Logic.Relation
import Relay.Lib.Machine

/-!
# Replicas and what they have heard of

A replicated object lives at several sites. At each site it is updated, and it merges states that
other replicas had at some earlier time: late, more than once, in any order. A run is a list of
actions, and the events of the run are the positions in that list.

## Causality

Event `a` has a link to event `b` if it comes first and either both happen at one site or `b`
merges the state that `a` left. The transitive closure of this is `HappensBefore`. It depends on
the actions only, not on what they do to any state.

The events that a state has heard of can also be collected along the run: an event knows itself,
what its replica knew, and what the merged state knew. `mem_causalPast_iff` and
`mem_causalHistory_iff` say that this collects exactly what the relation says.

## The run rule

`Replicated.run_induction` proves a statement about a state and what the state has heard of, for
all replicas and all snapshots at once. It has one case for each kind of action, and one that says
the statement is not disturbed by events elsewhere.

## Main definitions

* `Action`, `Link`, `HappensBefore`
* `causalPast`, `causalHistory`: the events known to an event, and to a replica
* `Replicated`, with its `machine`, `run` and `events`
* `tally`: what the known events of one site add up to

## Main results

* `mem_causalPast_iff`, `mem_causalHistory_iff`
* `Replicated.run_induction`
* `forall_tally_le_iff`: comparing tallies decides which events are known
* `tally_union`: two pasts know of one site's events one after another, so their union knows of the
  larger part
-/

namespace Relay

/-- What happens at a site. A merge names the event whose state it merges; one that has not happened
yet stands for a replica at which nothing has happened. -/
inductive Action (ι ω : Type*) where
  | update (site : ι) (op : ω)
  | merge (site : ι) (source : ℕ)

section Causality

variable {ι ω : Type*}

/-- Where the action happens. -/
def Action.site : Action ι ω → ι
  | .update site _ => site
  | .merge site _ => site

/-- The event whose state is merged. -/
def Action.source : Action ι ω → Option ℕ
  | .update _ _ => none
  | .merge _ source => some source

/-- The earlier event is at the same site, or its state is the one that is merged. -/
def Link (acts : List (Action ι ω)) (a b : ℕ) : Prop :=
  a < b ∧ ∃ x y, acts[a]? = some x ∧ acts[b]? = some y ∧ (x.site = y.site ∨ y.source = some a)

/-- The order of cause and effect. -/
def HappensBefore (acts : List (Action ι ω)) : ℕ → ℕ → Prop := Relation.TransGen (Link acts)

theorem Link.lt {acts : List (Action ι ω)} {a b : ℕ} (h : Link acts a b) : a < b := h.1

theorem Link.lt_length {acts : List (Action ι ω)} {a b : ℕ} (h : Link acts a b) :
    b < acts.length := by
  obtain ⟨-, -, y, -, hy, -⟩ := h
  exact (List.getElem?_eq_some_iff.mp hy).1

theorem HappensBefore.lt {acts : List (Action ι ω)} {a b : ℕ} (h : HappensBefore acts a b) :
    a < b := by
  induction h with
  | single h => exact h.lt
  | tail _ h ih => exact ih.trans h.lt

theorem HappensBefore.lt_length {acts : List (Action ι ω)} {a b : ℕ} (h : HappensBefore acts a b) :
    b < acts.length := by
  cases h with
  | single h => exact h.lt_length
  | tail _ h => exact h.lt_length

/-- One more action adds links into the new event only. -/
theorem link_append_singleton_iff {acts : List (Action ι ω)} {x : Action ι ω} {a b : ℕ} :
    Link (acts ++ [x]) a b ↔ Link acts a b ∨
      b = acts.length ∧ ∃ y, acts[a]? = some y ∧ (y.site = x.site ∨ x.source = some a) := by
  constructor
  · rintro ⟨hab, y, z, hy, hz, hlink⟩
    rcases getElem?_append_singleton_eq_some.mp hy with hy | ⟨rfl, -⟩
    · rcases getElem?_append_singleton_eq_some.mp hz with hz | ⟨rfl, rfl⟩
      · exact Or.inl ⟨hab, y, z, hy, hz, hlink⟩
      · exact Or.inr ⟨rfl, y, hy, hlink⟩
    · -- nothing comes after the new event
      have hb : b < acts.length + 1 := by simpa using (List.getElem?_eq_some_iff.mp hz).1
      omega
  · rintro (⟨hab, y, z, hy, hz, hlink⟩ | ⟨rfl, y, hy, hlink⟩)
    · exact ⟨hab, y, z, getElem?_append_singleton_eq_some.mpr (Or.inl hy),
        getElem?_append_singleton_eq_some.mpr (Or.inl hz), hlink⟩
    · exact ⟨(List.getElem?_eq_some_iff.mp hy).1, y, x,
        getElem?_append_singleton_eq_some.mpr (Or.inl hy), List.getElem?_concat_length, hlink⟩

/-- What leads to an event is settled when the event happens. -/
theorem reflTransGen_link_append_iff {acts : List (Action ι ω)} {x : Action ι ω} {a b : ℕ}
    (hb : b < acts.length) : Relation.ReflTransGen (Link (acts ++ [x])) a b ↔
      Relation.ReflTransGen (Link acts) a b := by
  constructor
  · intro h
    induction h with
    | refl => exact .refl
    | tail _ hlink ih =>
      rcases link_append_singleton_iff.mp hlink with hlink | ⟨rfl, -⟩
      · exact (ih (hlink.lt.trans hb)).tail hlink
      · exact absurd hb (lt_irrefl _)
  · intro h
    induction h with
    | refl => exact .refl
    | tail _ hlink ih =>
      exact (ih (hlink.lt.trans hb)).tail (link_append_singleton_iff.mpr (Or.inl hlink))

end Causality

/-! ## What is known where -/

/-- The state of every replica, and the state that each event left. -/
structure World (ι σ : Type*) where
  replica : ι → σ
  snapshots : List σ

/-- An event leaves its site in the state `s`. -/
def World.put {ι σ : Type*} [DecidableEq ι] (world : World ι σ) (site : ι) (s : σ) : World ι σ where
  replica := Function.update world.replica site s
  snapshots := world.snapshots ++ [s]

theorem World.replica_put {ι σ : Type*} [DecidableEq ι] (world : World ι σ) (site i : ι) (s : σ) :
    (world.put site s).replica i = if i = site then s else world.replica i :=
  Function.update_apply world.replica site s i

section Known

variable {ι ω : Type*} [DecidableEq ι]

/-- What an action gets to know: itself, what its replica knows and what the merged state knows. -/
def known (world : World ι (Finset ℕ)) (x : Action ι ω) : Finset ℕ :=
  insert world.snapshots.length (world.replica x.site ∪
    x.source.elim ∅ fun source => world.snapshots.getD source ∅)

/-- What replicas and events know after the actions. -/
def knowledge (acts : List (Action ι ω)) : World ι (Finset ℕ) :=
  acts.foldl (fun world x => world.put x.site (known world x)) ⟨fun _ => ∅, []⟩

/-- The events that event `b` knows of, itself included. -/
def causalPast (acts : List (Action ι ω)) (b : ℕ) : Finset ℕ :=
  (knowledge acts).snapshots.getD b ∅

/-- The events that the replica at a site knows of. -/
def causalHistory (acts : List (Action ι ω)) (site : ι) : Finset ℕ :=
  (knowledge acts).replica site

/-- What one more action gets to know. -/
def pastOfNext (acts : List (Action ι ω)) (x : Action ι ω) : Finset ℕ :=
  insert acts.length (causalHistory acts x.site ∪ x.source.elim ∅ (causalPast acts))

theorem length_snapshots_knowledge (acts : List (Action ι ω)) :
    (knowledge acts).snapshots.length = acts.length := by
  induction acts using List.reverseRecOn with
  | nil => rfl
  | append_singleton acts x ih =>
    rw [knowledge, List.foldl_append]
    show ((knowledge acts).snapshots ++ [_]).length = _
    rw [List.length_append, ih, List.length_append]
    rfl

theorem knowledge_append_singleton (acts : List (Action ι ω)) (x : Action ι ω) :
    knowledge (acts ++ [x]) = (knowledge acts).put x.site (pastOfNext acts x) := by
  rw [knowledge, List.foldl_append]
  show (knowledge acts).put x.site (known (knowledge acts) x) = _
  rw [known, length_snapshots_knowledge]
  rfl

theorem causalHistory_append_singleton (acts : List (Action ι ω)) (x : Action ι ω) (site : ι) :
    causalHistory (acts ++ [x]) site =
      if site = x.site then pastOfNext acts x else causalHistory acts site := by
  rw [causalHistory, knowledge_append_singleton, World.replica_put]
  rfl

theorem causalPast_append_singleton (acts : List (Action ι ω)) (x : Action ι ω) (b : ℕ) :
    causalPast (acts ++ [x]) b =
      if b = acts.length then pastOfNext acts x else causalPast acts b := by
  rw [causalPast, knowledge_append_singleton, causalPast]
  show ((knowledge acts).snapshots ++ [_]).getD b ∅ = _
  rw [List.getD_eq_getElem?_getD, List.getD_eq_getElem?_getD,
    ← length_snapshots_knowledge acts]
  rcases lt_trichotomy b (knowledge acts).snapshots.length with hb | hb | hb
  · rw [List.getElem?_append_left hb, if_neg hb.ne]
  · rw [hb, List.getElem?_concat_length, if_pos rfl]
    rfl
  · rw [List.getElem?_eq_none (by rw [List.length_append]; exact hb),
      List.getElem?_eq_none hb.le, if_neg hb.ne']

theorem lt_of_mem_causalPast {acts : List (Action ι ω)} {a b : ℕ} (ha : a ∈ causalPast acts b) :
    b < acts.length := by
  by_contra hb
  rw [causalPast, List.getD_eq_getElem?_getD, List.getElem?_eq_none
    (by rw [length_snapshots_knowledge]; exact not_lt.mp hb)] at ha
  exact absurd ha (Finset.notMem_empty a)

/-- What one more action gets to know, source by source. -/
theorem mem_pastOfNext_iff {acts : List (Action ι ω)} {x : Action ι ω} {a : ℕ} :
    a ∈ pastOfNext acts x ↔ a = acts.length ∨ a ∈ causalHistory acts x.site ∨
      ∃ source, x.source = some source ∧ a ∈ causalPast acts source := by
  rw [pastOfNext, Finset.mem_insert, Finset.mem_union]
  refine or_congr_right (or_congr_right ?_)
  cases x.source with
  | none => simp
  | some source => simp

/-- A replica knows what the events at its site know. -/
theorem mem_causalHistory_iff_exists {acts : List (Action ι ω)} {site : ι} {a : ℕ} :
    a ∈ causalHistory acts site ↔
      ∃ b x, acts[b]? = some x ∧ x.site = site ∧ a ∈ causalPast acts b := by
  induction acts using List.reverseRecOn with
  | nil => simp [causalHistory, knowledge]
  | append_singleton acts x ih =>
    simp only [causalHistory_append_singleton, causalPast_append_singleton,
      getElem?_append_singleton_eq_some]
    constructor
    · intro ha
      split at ha
      · next hsite => exact ⟨acts.length, x, Or.inr ⟨rfl, rfl⟩, hsite.symm, by rwa [if_pos rfl]⟩
      · obtain ⟨b, y, hy, hsite, ha⟩ := ih.mp ha
        have hb := (List.getElem?_eq_some_iff.mp hy).1
        exact ⟨b, y, Or.inl hy, hsite, by rwa [if_neg hb.ne]⟩
    · rintro ⟨b, y, hy | ⟨rfl, rfl⟩, hsite, ha⟩
      · have hb := (List.getElem?_eq_some_iff.mp hy).1
        rw [if_neg hb.ne] at ha
        have hknown := ih.mpr ⟨b, y, hy, hsite, ha⟩
        split
        · next hx => exact mem_pastOfNext_iff.mpr (Or.inr (Or.inl (hx ▸ hknown)))
        · exact hknown
      · rw [if_pos rfl] at ha
        rwa [if_pos hsite.symm]

/-- **Causal pasts.** An event knows of itself and of the events that happened before it. -/
theorem mem_causalPast_iff {acts : List (Action ι ω)} {a b : ℕ} (hb : b < acts.length) :
    a ∈ causalPast acts b ↔ Relation.ReflTransGen (Link acts) a b := by
  induction acts using List.reverseRecOn generalizing a b with
  | nil => exact absurd hb (Nat.not_lt_zero b)
  | append_singleton acts x ih =>
    rw [causalPast_append_singleton]
    by_cases hnew : b = acts.length
    · subst hnew
      rw [if_pos rfl, mem_pastOfNext_iff, mem_causalHistory_iff_exists,
        Relation.ReflTransGen.cases_tail_iff]
      refine or_congr eq_comm ⟨?_, ?_⟩
      · rintro (⟨c, y, hy, hsite, ha⟩ | ⟨c, hsource, ha⟩)
        · have hc := (List.getElem?_eq_some_iff.mp hy).1
          exact ⟨c, (reflTransGen_link_append_iff hc).mpr ((ih hc).mp ha),
            link_append_singleton_iff.mpr (Or.inr ⟨rfl, y, hy, Or.inl hsite⟩)⟩
        · have hc := lt_of_mem_causalPast ha
          exact ⟨c, (reflTransGen_link_append_iff hc).mpr ((ih hc).mp ha),
            link_append_singleton_iff.mpr (Or.inr
              ⟨rfl, acts[c], List.getElem?_eq_getElem hc, Or.inr hsource⟩)⟩
      · rintro ⟨c, hac, hlink⟩
        rcases link_append_singleton_iff.mp hlink with hlink | ⟨-, y, hy, hlink⟩
        · exact absurd hlink.lt_length (lt_irrefl _)
        · have hc := (List.getElem?_eq_some_iff.mp hy).1
          have ha := (ih hc).mpr ((reflTransGen_link_append_iff hc).mp hac)
          rcases hlink with hsite | hsource
          · exact Or.inl ⟨c, y, hy, hsite, ha⟩
          · exact Or.inr ⟨c, hsource, ha⟩
    · rw [List.length_append] at hb
      have hb : b < acts.length := lt_of_le_of_ne (Nat.le_of_lt_succ hb) hnew
      rw [if_neg hnew, ih hb, reflTransGen_link_append_iff hb]

/-- **Causal histories.** A replica knows of the events at its site and of the events that happened
before them. -/
theorem mem_causalHistory_iff {acts : List (Action ι ω)} {site : ι} {a : ℕ} :
    a ∈ causalHistory acts site ↔
      ∃ b x, acts[b]? = some x ∧ x.site = site ∧ Relation.ReflTransGen (Link acts) a b := by
  rw [mem_causalHistory_iff_exists]
  refine exists_congr fun b => exists_congr fun x => and_congr_right fun hx => and_congr_right
    fun _ => mem_causalPast_iff (List.getElem?_eq_some_iff.mp hx).1

/-- A replica knows of the events at its site. -/
theorem mem_causalHistory_self {acts : List (Action ι ω)} {a : ℕ} {x : Action ι ω}
    (hx : acts[a]? = some x) : a ∈ causalHistory acts x.site :=
  mem_causalHistory_iff.mpr ⟨a, x, hx, rfl, .refl⟩

theorem mem_causalPast_self {acts : List (Action ι ω)} {a : ℕ} (ha : a < acts.length) :
    a ∈ causalPast acts a :=
  (mem_causalPast_iff ha).mpr .refl

/-- Apart from itself, an event knows of what happened before it. -/
theorem mem_causalPast_iff_happensBefore {acts : List (Action ι ω)} {a b : ℕ}
    (hb : b < acts.length) : a ∈ causalPast acts b ↔ a = b ∨ HappensBefore acts a b := by
  rw [mem_causalPast_iff hb, Relation.reflTransGen_iff_eq_or_transGen, eq_comm]
  rfl

/-- What a known event knows of is known. -/
theorem causalPast_subset {acts : List (Action ι ω)} {a b : ℕ} (h : a ∈ causalPast acts b) :
    causalPast acts a ⊆ causalPast acts b := by
  intro c hc
  have hb := lt_of_mem_causalPast h
  rw [mem_causalPast_iff hb] at h ⊢
  exact ((mem_causalPast_iff (lt_of_mem_causalPast hc)).mp hc).trans h

/-- A set of events that is closed under causes. -/
structure IsPast (acts : List (Action ι ω)) (H : Finset ℕ) : Prop where
  lt : ∀ a ∈ H, a < acts.length
  closed : ∀ b ∈ H, ∀ a, Link acts a b → a ∈ H

omit [DecidableEq ι] in
theorem IsPast.union {acts : List (Action ι ω)} {H H' : Finset ℕ} (hH : IsPast acts H)
    (hH' : IsPast acts H') : IsPast acts (H ∪ H') where
  lt a ha := (Finset.mem_union.mp ha).elim (hH.lt a) (hH'.lt a)
  closed b hb a hab := (Finset.mem_union.mp hb).elim
    (fun hb => Finset.mem_union_left _ (hH.closed b hb a hab))
    (fun hb => Finset.mem_union_right _ (hH'.closed b hb a hab))

theorem isPast_causalPast (acts : List (Action ι ω)) (b : ℕ) : IsPast acts (causalPast acts b) where
  lt a ha := by
    have hb := lt_of_mem_causalPast ha
    rcases (mem_causalPast_iff_happensBefore hb).mp ha with rfl | hab
    · exact hb
    · exact hab.lt.trans hb
  closed c hc a hac := by
    have hb := lt_of_mem_causalPast hc
    rw [mem_causalPast_iff hb] at hc ⊢
    exact hc.head hac

theorem isPast_causalHistory (acts : List (Action ι ω)) (site : ι) :
    IsPast acts (causalHistory acts site) where
  lt a ha := by
    obtain ⟨b, x, -, -, ha⟩ := mem_causalHistory_iff_exists.mp ha
    exact (isPast_causalPast acts b).lt a ha
  closed c hc a hac := by
    obtain ⟨b, x, hx, hsite, hc⟩ := mem_causalHistory_iff_exists.mp hc
    exact mem_causalHistory_iff_exists.mpr
      ⟨b, x, hx, hsite, (isPast_causalPast acts b).closed c hc a hac⟩

/-- What a replica knows it does not forget. -/
theorem causalHistory_subset_append (acts more : List (Action ι ω)) (site : ι) :
    causalHistory acts site ⊆ causalHistory (acts ++ more) site := by
  induction more using List.reverseRecOn with
  | nil => rw [List.append_nil]
  | append_singleton more x ih =>
    rw [← List.append_assoc, causalHistory_append_singleton]
    split
    · next hsite =>
      intro a ha
      exact mem_pastOfNext_iff.mpr (Or.inr (Or.inl (hsite ▸ ih ha)))
    · exact ih

end Known

/-! ## Replicated objects -/

/-- An object with a replica at each site: how it starts, how it is updated there, and how it merges
the state of another replica. -/
structure Replicated (ι σ ω α : Type*) where
  init : ι → σ
  update : ι → σ → ω → α × σ
  merge : ι → σ → σ → α × σ

namespace Replicated

variable {ι σ ω α : Type*} [DecidableEq ι] (O : Replicated ι σ ω α)

/-- All replicas as one component. -/
def machine : Machine (World ι σ) (Action ι ω) α where
  step world
    | .update site op =>
      let result := O.update site (world.replica site) op
      (result.1, world.put site result.2)
    | .merge site source =>
      let result := O.merge site (world.replica site) (world.snapshots.getD source (O.init site))
      (result.1, world.put site result.2)

/-- The replicas before anything has happened. -/
def start : World ι σ := ⟨O.init, []⟩

/-- The replicas after a run. -/
def run (acts : List (Action ι ω)) : World ι σ := O.machine.final O.start acts

/-- The actions of a run with their answers. -/
def events (acts : List (Action ι ω)) : List (Action ι ω × α) := O.machine.trace O.start acts

@[simp] theorem length_events (acts : List (Action ι ω)) : (O.events acts).length = acts.length :=
  O.machine.length_trace O.start acts

theorem run_append_singleton (acts : List (Action ι ω)) (x : Action ι ω) :
    O.run (acts ++ [x]) = (O.machine.step (O.run acts) x).2 := by
  rw [run, Machine.final_append]
  rfl

theorem events_append_singleton (acts : List (Action ι ω)) (x : Action ι ω) :
    O.events (acts ++ [x]) = O.events acts ++ [(x, (O.machine.step (O.run acts) x).1)] := by
  rw [events, Machine.trace_append]
  rfl

theorem getElem?_events_of_lt {acts : List (Action ι ω)} (x : Action ι ω) {a : ℕ}
    (ha : a < acts.length) : (O.events (acts ++ [x]))[a]? = (O.events acts)[a]? := by
  rw [events_append_singleton, List.getElem?_append_left (by rwa [length_events])]

theorem getElem?_events_length (acts : List (Action ι ω)) (x : Action ι ω) :
    (O.events (acts ++ [x]))[acts.length]? = some (x, (O.machine.step (O.run acts) x).1) := by
  rw [events_append_singleton, ← O.length_events acts, List.getElem?_concat_length]

/-- One more action leaves its site in some state, and the other sites as they are. -/
theorem exists_run_append_singleton (acts : List (Action ι ω)) (x : Action ι ω) :
    ∃ s, O.run (acts ++ [x]) = (O.run acts).put x.site s := by
  rw [run_append_singleton]
  cases x with
  | update site op => exact ⟨_, rfl⟩
  | merge site source => exact ⟨_, rfl⟩

theorem length_snapshots_run (acts : List (Action ι ω)) :
    (O.run acts).snapshots.length = acts.length := by
  induction acts using List.reverseRecOn with
  | nil => rfl
  | append_singleton acts x ih =>
    obtain ⟨s, hs⟩ := O.exists_run_append_singleton acts x
    rw [hs, World.put, List.length_append, List.length_append, ih]
    rfl

/-- If an action always answers with what it leaves its replica with, seen through `f` and `g`, then
the answers of a run are its snapshots. -/
theorem map_events_eq_map_snapshots {β : Type*} {f : α → β} {g : σ → β}
    (hupdate : ∀ i s op, f (O.update i s op).1 = g (O.update i s op).2)
    (hmerge : ∀ i s s', f (O.merge i s s').1 = g (O.merge i s s').2) (acts : List (Action ι ω)) :
    (O.events acts).map (fun e => f e.2) = (O.run acts).snapshots.map g := by
  induction acts using List.reverseRecOn with
  | nil => rfl
  | append_singleton acts x ih =>
    rw [events_append_singleton, run_append_singleton, List.map_append, ih]
    cases x with
    | update i op =>
      show _ = ((O.run acts).snapshots ++ [_]).map g
      rw [List.map_append, List.map_singleton, List.map_singleton]
      exact congrArg (fun y => _ ++ [y]) (hupdate i _ op)
    | merge i source =>
      show _ = ((O.run acts).snapshots ++ [_]).map g
      rw [List.map_append, List.map_singleton, List.map_singleton]
      exact congrArg (fun y => _ ++ [y]) (hmerge i _ _)

variable {O}

/-- What holds of every snapshot with its past, and of a fresh replica, holds of whatever a merge
reads. -/
theorem exists_of_source {P : ι → Finset ℕ → σ → Prop} {acts : List (Action ι ω)}
    (init : ∀ i, P i ∅ (O.init i))
    (hsnapshot : ∀ b s, (O.run acts).snapshots[b]? = some s → ∃ j, P j (causalPast acts b) s)
    (i : ι) (source : ℕ) :
    ∃ j, P j (causalPast acts source) ((O.run acts).snapshots.getD source (O.init i)) := by
  rw [List.getD_eq_getElem?_getD]
  cases hs : (O.run acts).snapshots[source]? with
  | some s => exact hsnapshot source s hs
  | none =>
    rw [List.getElem?_eq_none_iff, length_snapshots_run] at hs
    have hempty : causalPast acts source = ∅ :=
      Finset.eq_empty_of_forall_notMem fun a ha => absurd (lt_of_mem_causalPast ha) (not_lt.mpr hs)
    rw [hempty]
    exact ⟨i, init i⟩

/-- **The run rule for replicas.** Let `P` relate a run, a site, a set of events of the run and a
state. If `P` holds of a fresh replica and no events, is not disturbed by events elsewhere, and is
kept by updates and merges, where the sets are what the replica and the merged state know, then it
holds of every replica with its history and of every snapshot with its past. -/
theorem run_induction {P : List (Action ι ω) → ι → Finset ℕ → σ → Prop}
    (init : ∀ acts i, P acts i ∅ (O.init i))
    (extend : ∀ acts x i H s, (∀ a ∈ H, a < acts.length) → P acts i H s → P (acts ++ [x]) i H s)
    (update : ∀ acts i op, P acts i (causalHistory acts i) ((O.run acts).replica i) →
      P (acts ++ [.update i op]) i (insert acts.length (causalHistory acts i))
        (O.update i ((O.run acts).replica i) op).2)
    (merge : ∀ acts i source j s', s' = (O.run acts).snapshots.getD source (O.init i) →
      P acts i (causalHistory acts i) ((O.run acts).replica i) →
      P acts j (causalPast acts source) s' →
      P (acts ++ [.merge i source]) i
        (insert acts.length (causalHistory acts i ∪ causalPast acts source))
        (O.merge i ((O.run acts).replica i) s').2)
    (acts : List (Action ι ω)) :
    (∀ i, P acts i (causalHistory acts i) ((O.run acts).replica i)) ∧
      ∀ b s, (O.run acts).snapshots[b]? = some s → ∃ j, P acts j (causalPast acts b) s := by
  induction acts using List.reverseRecOn with
  | nil => exact ⟨fun i => init [] i, fun b s hs => by cases hs⟩
  | append_singleton acts x ih =>
    obtain ⟨hreplica, hsnapshot⟩ := ih
    -- the action itself
    have hnew : P (acts ++ [x]) x.site (pastOfNext acts x)
        ((O.run (acts ++ [x])).replica x.site) := by
      rw [run_append_singleton]
      cases x with
      | update i op =>
        show P _ i (insert acts.length (causalHistory acts i ∪ ∅))
          (((O.run acts).put i _).replica i)
        rw [World.replica_put, if_pos rfl, Finset.union_empty]
        exact update acts i op (hreplica i)
      | merge i source =>
        obtain ⟨j, hsource⟩ := exists_of_source (P := P acts) (init acts) hsnapshot i source
        show P _ i (insert acts.length (causalHistory acts i ∪ causalPast acts source))
          (((O.run acts).put i _).replica i)
        rw [World.replica_put, if_pos rfl]
        exact merge acts i source j _ rfl (hreplica i) hsource
    obtain ⟨s, hs⟩ := O.exists_run_append_singleton acts x
    rw [hs] at hnew ⊢
    rw [World.replica_put, if_pos rfl] at hnew
    -- everything else is as it was
    constructor
    · intro i
      rw [causalHistory_append_singleton, World.replica_put]
      by_cases hi : i = x.site
      · rw [if_pos hi, if_pos hi, hi]
        exact hnew
      · rw [if_neg hi, if_neg hi]
        exact extend acts x i _ _ (isPast_causalHistory acts i).lt (hreplica i)
    · intro b s' hs'
      rw [causalPast_append_singleton]
      rcases getElem?_append_singleton_eq_some.mp hs' with hs' | ⟨hb, rfl⟩
      · have hb := (List.getElem?_eq_some_iff.mp hs').1
        rw [length_snapshots_run] at hb
        rw [if_neg hb.ne]
        obtain ⟨j, h⟩ := hsnapshot b s' hs'
        exact ⟨j, extend acts x j _ _ (isPast_causalPast acts b).lt h⟩
      · rw [if_pos (hb.trans (O.length_snapshots_run acts))]
        exact ⟨x.site, hnew⟩

end Replicated

/-! ## Adding up what is known of a site -/

section Tally

variable {ι ω : Type*} [DecidableEq ι]

/-- Those of the events that happened at a site. -/
def eventsAt (acts : List (Action ι ω)) (H : Finset ℕ) (site : ι) : Finset ℕ :=
  H.filter fun a => (acts[a]?).map Action.site = some site

/-- What the events at a site add up to. -/
def tally (acts : List (Action ι ω)) (weight : ℕ → ℤ) (H : Finset ℕ) (site : ι) : ℤ :=
  ∑ a ∈ eventsAt acts H site, weight a

variable {acts : List (Action ι ω)} {weight : ℕ → ℤ} {H H' : Finset ℕ} {site : ι}

theorem mem_eventsAt {a : ℕ} : a ∈ eventsAt acts H site ↔
    a ∈ H ∧ ∃ x, acts[a]? = some x ∧ x.site = site := by
  rw [eventsAt, Finset.mem_filter, Option.map_eq_some_iff]

/-- A past that knows of an event knows of the earlier ones at the same site. -/
theorem IsPast.mem_eventsAt_of_le (hH : IsPast acts H) {a b : ℕ} (hb : b ∈ eventsAt acts H site)
    (hle : a ≤ b) {x : Action ι ω} (hx : acts[a]? = some x) (hsite : x.site = site) :
    a ∈ eventsAt acts H site := by
  obtain ⟨hbH, y, hy, hysite⟩ := mem_eventsAt.mp hb
  rcases hle.eq_or_lt with rfl | hlt
  · exact hb
  · exact mem_eventsAt.mpr ⟨hH.closed b hbH a ⟨hlt, x, y, hx, hy, Or.inl (hsite.trans hysite.symm)⟩,
      x, hx, hsite⟩

/-- Of the events at one site, one of two pasts knows all that the other knows. -/
theorem IsPast.eventsAt_subset_or (hH : IsPast acts H) (hH' : IsPast acts H') (site : ι) :
    eventsAt acts H site ⊆ eventsAt acts H' site ∨
      eventsAt acts H' site ⊆ eventsAt acts H site := by
  by_contra hneither
  rw [not_or, Finset.not_subset, Finset.not_subset] at hneither
  obtain ⟨⟨a, ha, ha'⟩, ⟨b, hb, hb'⟩⟩ := hneither
  obtain ⟨-, x, hx, hxsite⟩ := mem_eventsAt.mp ha
  obtain ⟨-, y, hy, hysite⟩ := mem_eventsAt.mp hb
  rcases le_total a b with hle | hle
  · exact ha' (hH'.mem_eventsAt_of_le hb hle hx hxsite)
  · exact hb' (hH.mem_eventsAt_of_le ha hle hy hysite)

theorem eventsAt_union : eventsAt acts (H ∪ H') site =
    eventsAt acts H site ∪ eventsAt acts H' site :=
  Finset.filter_union _ _ _

theorem tally_mono (hweight : ∀ a, 0 ≤ weight a) (hsubset : H ⊆ H') :
    tally acts weight H site ≤ tally acts weight H' site :=
  Finset.sum_le_sum_of_subset_of_nonneg (Finset.filter_subset_filter _ hsubset)
    fun a _ _ => hweight a

theorem tally_nonneg (hweight : ∀ a, 0 ≤ weight a) : 0 ≤ tally acts weight H site :=
  Finset.sum_nonneg fun a _ => hweight a

/-- **Two pasts together.** Their union knows of as much of a site as the one that knows more. -/
theorem tally_union (hH : IsPast acts H) (hH' : IsPast acts H') (hweight : ∀ a, 0 ≤ weight a) :
    tally acts weight (H ∪ H') site =
      max (tally acts weight H site) (tally acts weight H' site) := by
  rw [tally, eventsAt_union]
  rcases hH.eventsAt_subset_or hH' site with hsubset | hsubset
  · have hle : tally acts weight H site ≤ tally acts weight H' site :=
      Finset.sum_le_sum_of_subset_of_nonneg hsubset fun a _ _ => hweight a
    rw [Finset.union_eq_right.mpr hsubset, max_eq_right hle]
    rfl
  · have hle : tally acts weight H' site ≤ tally acts weight H site :=
      Finset.sum_le_sum_of_subset_of_nonneg hsubset fun a _ _ => hweight a
    rw [Finset.union_eq_left.mpr hsubset, max_eq_left hle]
    rfl

/-- **Pasts compared.** Where every event counts, an event is known to another exactly when its past
adds up to no more at any site. -/
theorem forall_tally_le_iff (hweight : ∀ a, 0 < weight a) {a b : ℕ} (ha : a < acts.length) :
    (∀ site, tally acts weight (causalPast acts a) site ≤
      tally acts weight (causalPast acts b) site) ↔ a ∈ causalPast acts b := by
  constructor
  · intro hle
    by_contra hunknown
    -- at its own site the event is ahead of what the other knows
    have hx := List.getElem?_eq_getElem ha
    have hmem : a ∈ eventsAt acts (causalPast acts a) acts[a].site :=
      mem_eventsAt.mpr ⟨mem_causalPast_self ha, acts[a], hx, rfl⟩
    have hnot : a ∉ eventsAt acts (causalPast acts b) acts[a].site := fun hmem =>
      hunknown (mem_eventsAt.mp hmem).1
    rcases (isPast_causalPast acts a).eventsAt_subset_or (isPast_causalPast acts b)
      acts[a].site with hsubset | hsubset
    · exact hnot (hsubset hmem)
    · exact absurd (hle acts[a].site) (not_le.mpr (Finset.sum_lt_sum_of_subset hsubset hmem hnot
        (hweight a) fun c _ _ => (hweight c).le))
  · intro hknown site
    exact tally_mono (fun c => (hweight c).le) (causalPast_subset hknown)

/-- A later action does not change what older events add up to. -/
theorem tally_append_singleton (hH : ∀ a ∈ H, a < acts.length) (x : Action ι ω) {weight' : ℕ → ℤ}
    (hweight : ∀ a < acts.length, weight' a = weight a) :
    tally (acts ++ [x]) weight' H site = tally acts weight H site := by
  have hevents : eventsAt (acts ++ [x]) H site = eventsAt acts H site := by
    refine Finset.filter_congr fun a ha => ?_
    rw [List.getElem?_append_left (hH a ha)]
  rw [tally, hevents]
  exact Finset.sum_congr rfl fun a ha => hweight a (hH a (mem_eventsAt.mp ha).1)

/-- The newest action counts for its own site only. -/
theorem tally_insert_length (hH : ∀ a ∈ H, a < acts.length) (x : Action ι ω) {weight' : ℕ → ℤ}
    (hweight : ∀ a < acts.length, weight' a = weight a) :
    tally (acts ++ [x]) weight' (insert acts.length H) site =
      tally acts weight H site + if site = x.site then weight' acts.length else 0 := by
  rw [← tally_append_singleton hH x hweight, tally, tally, eventsAt, Finset.filter_insert,
    List.getElem?_concat_length, Option.map_some]
  by_cases hsite : site = x.site
  · have hnot : acts.length ∉ eventsAt (acts ++ [x]) H site := fun hmem =>
      absurd (hH _ (mem_eventsAt.mp hmem).1) (lt_irrefl _)
    rw [if_pos (by rw [hsite]), if_pos hsite]
    exact (Finset.sum_insert hnot).trans (add_comm _ _)
  · rw [if_neg (fun heq => hsite (Option.some.inj heq).symm), if_neg hsite, add_zero]
    rfl

/-- A past knows of the events at a site up to some point. -/
theorem IsPast.exists_point (hH : IsPast acts H) (site : ι) : ∃ point ≤ acts.length,
    ∀ a x, acts[a]? = some x → x.site = site → (a ∈ H ↔ a < point) := by
  refine ⟨(eventsAt acts H site).sup (· + 1), Finset.sup_le fun a ha => ?_, fun a x hx hsite => ?_⟩
  · exact hH.lt a (mem_eventsAt.mp ha).1
  · constructor
    · intro ha
      exact Finset.le_sup (f := (· + 1)) (mem_eventsAt.mpr ⟨ha, x, hx, hsite⟩)
    · intro ha
      obtain ⟨b, hb, hab⟩ := Finset.lt_sup_iff.mp ha
      exact (mem_eventsAt.mp
        (hH.mem_eventsAt_of_le hb (Nat.lt_succ_iff.mp hab) hx hsite)).1

/-- The events at a site add up to the same for two sets that agree on them. -/
theorem tally_congr (h : ∀ a x, acts[a]? = some x → x.site = site → (a ∈ H ↔ a ∈ H')) :
    tally acts weight H site = tally acts weight H' site := by
  have hevents : eventsAt acts H site = eventsAt acts H' site := by
    ext a
    rw [mem_eventsAt, mem_eventsAt]
    refine and_congr_left ?_
    rintro ⟨x, hx, hsite⟩
    exact h a x hx hsite
  rw [tally, hevents]
  rfl

/-- All events add up to what they add up to site by site. -/
theorem sum_tally (hH : IsPast acts H) {sites : Finset ι} (hsites : ∀ x ∈ acts, x.site ∈ sites) :
    ∑ site ∈ sites, tally acts weight H site = ∑ a ∈ H, weight a := by
  have hmaps : ∀ a ∈ H, (acts[a]?).map Action.site ∈ sites.map Function.Embedding.some := by
    intro a ha
    have hx := List.getElem?_eq_getElem (hH.lt a ha)
    rw [hx, Finset.mem_map]
    exact ⟨_, hsites _ (List.mem_of_getElem? hx), rfl⟩
  rw [← Finset.sum_fiberwise_of_maps_to hmaps, Finset.sum_map]
  rfl

end Tally

end Relay
