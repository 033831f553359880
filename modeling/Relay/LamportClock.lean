import Mathlib.Data.Prod.Lex
import Relay.Errors
import Relay.Lib.Causal

/-!
# Lamport clocks

A node counts its events, and a received timestamp raises the count above it. The stamp of an event
is the count with the node's id behind it, and stamps are compared as pairs.

A run is any interleaving of events at any nodes, where a receipt takes the count that some earlier
event left: late, more than once, in any order. The counter of an event is then not only above those
of its causes: it is the length of the longest chain of causes that ends in it, so that no smaller
numbers would do.

## Main definitions

* `LamportClock`, with `tick`, `onReceive`, `stamp` and `happensBefore`
* `lamport`: a clock at every node, as a replicated object
* `counterAt`, `stampAt`: the counter and the stamp that an event leaves

## Main results

* `counterAt_isGreatest`: the counter of an event is the length of the longest chain of causes
* `stampAt_total_order`: stamps order all events, each at its own place, and causes before effects
-/

namespace Relay

/-- A node's clock. The constructor refuses negative ids. -/
structure LamportClock where
  nodeId : ℤ
  counter : ℤ := 0
  nodeId_nonneg : 0 ≤ nodeId

namespace LamportClock

/-- `tick`. -/
def tick (clock : LamportClock) : ℤ × LamportClock :=
  let counter := clock.counter + 1
  (counter, { clock with counter })

/-- `on_receive`. -/
def onReceive (clock : LamportClock) (messageTimestamp : ℤ) :
    Except RelayError ℤ × LamportClock :=
  if messageTimestamp < 0 then
    (.error (.invalid "a received Lamport timestamp cannot be negative"), clock)
  else
    let counter := max clock.counter messageTimestamp + 1
    (.ok counter, { clock with counter })

/-- `stamp`: a tie between counters is broken by the node. -/
def stamp (clock : LamportClock) : ℤ × ℤ := (clock.counter, clock.nodeId)

/-- `happens_before`, on stamps. -/
def happensBefore (a b : ℤ × ℤ) : Bool := toLex a < toLex b

theorem nodeId_onReceive (clock : LamportClock) (messageTimestamp : ℤ) :
    (clock.onReceive messageTimestamp).2.nodeId = clock.nodeId := by
  rw [onReceive]
  split <;> rfl

theorem onReceive_of_nonneg (clock : LamportClock) {messageTimestamp : ℤ}
    (h : 0 ≤ messageTimestamp) : (clock.onReceive messageTimestamp).2.counter =
        max clock.counter messageTimestamp + 1 ∧
      (clock.onReceive messageTimestamp).1 =
        .ok (clock.onReceive messageTimestamp).2.counter := by
  rw [onReceive, if_neg (not_lt.mpr h)]
  exact ⟨rfl, rfl⟩

theorem happensBefore_iff {a b : ℤ × ℤ} :
    happensBefore a b = true ↔ a.1 < b.1 ∨ a.1 = b.1 ∧ a.2 < b.2 := by
  rw [happensBefore, decide_eq_true_eq]
  exact Prod.Lex.toLex_lt_toLex

end LamportClock

/-- A clock at every node. A receipt takes the counter that an earlier event left. -/
def lamport : Replicated ℕ LamportClock Unit (Except RelayError ℤ) where
  init i := { nodeId := i, nodeId_nonneg := Int.natCast_nonneg i }
  update _ clock _ := (.ok clock.tick.1, clock.tick.2)
  merge _ clock sender := clock.onReceive sender.counter

/-- The counter of the clock that an event leaves. -/
def counterAt (acts : List (Action ℕ Unit)) (a : ℕ) : ℤ :=
  ((lamport.run acts).snapshots[a]?.map LamportClock.counter).getD 0

/-- The stamp of the clock that an event leaves. -/
def stampAt (acts : List (Action ℕ Unit)) (a : ℕ) : ℤ × ℤ :=
  ((lamport.run acts).snapshots[a]?.map LamportClock.stamp).getD (0, 0)

variable {acts : List (Action ℕ Unit)}

theorem counterAt_append {x : Action ℕ Unit} {a : ℕ} (ha : a < acts.length) :
    counterAt (acts ++ [x]) a = counterAt acts a := by
  obtain ⟨s, hs⟩ := lamport.exists_run_append_singleton acts x
  rw [counterAt, hs, World.put, List.getElem?_append_left
    (by rwa [lamport.length_snapshots_run]), counterAt]

theorem counterAt_length {x : Action ℕ Unit} {s : LamportClock}
    (hs : (lamport.machine.step (lamport.run acts) x).2 = (lamport.run acts).put x.site s) :
    counterAt (acts ++ [x]) acts.length = s.counter := by
  rw [counterAt, lamport.run_append_singleton, hs, World.put, ← lamport.length_snapshots_run acts,
    List.getElem?_concat_length]
  rfl

/-! ### What a clock knows -/

/-- The counter `c` is the largest of the events in `H`, and each of these has a counter one above
the largest of its own causes. -/
structure Heights (acts : List (Action ℕ Unit)) (H : Finset ℕ) (c : ℤ) : Prop where
  nonneg : 0 ≤ c
  le : ∀ a ∈ H, counterAt acts a ≤ c
  attained : c = 0 ∨ ∃ a ∈ H, counterAt acts a = c
  lt : ∀ b ∈ H, ∀ a ∈ causalPast acts b, a ≠ b → counterAt acts a < counterAt acts b
  cause : ∀ b ∈ H, counterAt acts b = 1 ∨
    ∃ a ∈ causalPast acts b, a ≠ b ∧ counterAt acts b = counterAt acts a + 1
  pos : ∀ b ∈ H, 1 ≤ counterAt acts b

namespace Heights

variable {H H' : Finset ℕ} {c c' : ℤ}

theorem fresh (acts : List (Action ℕ Unit)) : Heights acts ∅ 0 where
  nonneg := le_rfl
  le _ ha := absurd ha (Finset.notMem_empty _)
  attained := Or.inl rfl
  lt _ hb := absurd hb (Finset.notMem_empty _)
  cause _ hb := absurd hb (Finset.notMem_empty _)
  pos _ hb := absurd hb (Finset.notMem_empty _)

theorem extend (hH : ∀ a ∈ H, a < acts.length) (h : Heights acts H c) (x : Action ℕ Unit) :
    Heights (acts ++ [x]) H c where
  nonneg := h.nonneg
  le a ha := (counterAt_append (hH a ha)).trans_le (h.le a ha)
  attained := h.attained.imp_right fun ⟨a, ha, heq⟩ =>
    ⟨a, ha, (counterAt_append (hH a ha)).trans heq⟩
  lt b hb a ha hne := by
    rw [causalPast_append_singleton, if_neg (hH b hb).ne] at ha
    rw [counterAt_append ((isPast_causalPast acts b).lt a ha), counterAt_append (hH b hb)]
    exact h.lt b hb a ha hne
  cause b hb := by
    rw [counterAt_append (hH b hb), causalPast_append_singleton, if_neg (hH b hb).ne]
    refine (h.cause b hb).imp_right ?_
    rintro ⟨a, ha, hne, heq⟩
    exact ⟨a, ha, hne, by rw [counterAt_append ((isPast_causalPast acts b).lt a ha), heq]⟩
  pos b hb := (h.pos b hb).trans_eq (counterAt_append (hH b hb)).symm

/-- What two clocks know together, the larger counter heads. -/
theorem union (h : Heights acts H c) (h' : Heights acts H' c') :
    Heights acts (H ∪ H') (max c c') where
  nonneg := le_max_of_le_left h.nonneg
  le a ha := by
    rcases Finset.mem_union.mp ha with ha | ha
    · exact le_max_of_le_left (h.le a ha)
    · exact le_max_of_le_right (h'.le a ha)
  attained := by
    rcases max_choice c c' with heq | heq
    · rw [heq]
      exact h.attained.imp_right fun ⟨a, ha, hc⟩ => ⟨a, Finset.mem_union_left _ ha, hc⟩
    · rw [heq]
      exact h'.attained.imp_right fun ⟨a, ha, hc⟩ => ⟨a, Finset.mem_union_right _ ha, hc⟩
  lt b hb := (Finset.mem_union.mp hb).elim (h.lt b) (h'.lt b)
  cause b hb := (Finset.mem_union.mp hb).elim (h.cause b) (h'.cause b)
  pos b hb := (Finset.mem_union.mp hb).elim (h.pos b) (h'.pos b)

/-- An event whose counter is one above `c` heads itself and its causes. -/
theorem grow (hH : ∀ a ∈ H, a < acts.length) (h : Heights acts H c) {x : Action ℕ Unit}
    (hpast : pastOfNext acts x = insert acts.length H)
    (hcounter : counterAt (acts ++ [x]) acts.length = c + 1) :
    Heights (acts ++ [x]) (insert acts.length H) (c + 1) := by
  have h' := h.extend hH x
  have hpast' : causalPast (acts ++ [x]) acts.length = insert acts.length H := by
    rw [causalPast_append_singleton, if_pos rfl, hpast]
  refine ⟨?_, ?_, ?_, ?_, ?_, ?_⟩
  · exact h.nonneg.trans (lt_add_one c).le
  · intro a ha
    rcases Finset.mem_insert.mp ha with rfl | ha
    · exact hcounter.le
    · exact (h'.le a ha).trans (lt_add_one c).le
  · exact Or.inr ⟨acts.length, Finset.mem_insert_self _ _, hcounter⟩
  · intro b hb a ha hne
    rcases Finset.mem_insert.mp hb with rfl | hb
    · rw [hpast'] at ha
      rw [hcounter]
      exact Int.lt_add_one_of_le (h'.le a (Finset.mem_of_mem_insert_of_ne ha hne))
    · exact h'.lt b hb a ha hne
  · intro b hb
    rcases Finset.mem_insert.mp hb with rfl | hb
    · rw [hcounter, hpast']
      refine h'.attained.imp (fun hzero => by rw [hzero, zero_add]) ?_
      rintro ⟨a, ha, heq⟩
      exact ⟨a, Finset.mem_insert_of_mem ha, (hH a ha).ne, by rw [heq]⟩
    · exact h'.cause b hb
  · intro b hb
    rcases Finset.mem_insert.mp hb with rfl | hb
    · rw [hcounter]
      exact Int.le_add_of_nonneg_left h.nonneg
    · exact h'.pos b hb

end Heights

theorem heights_run (acts : List (Action ℕ Unit)) :
    (∀ i, Heights acts (causalHistory acts i) ((lamport.run acts).replica i).counter) ∧
      ∀ b clock, (lamport.run acts).snapshots[b]? = some clock →
        ∃ _j : ℕ, Heights acts (causalPast acts b) clock.counter := by
  refine Replicated.run_induction (O := lamport)
    (P := fun acts _ H clock => Heights acts H clock.counter) ?_ ?_ ?_ ?_ acts
  · exact fun acts _ => Heights.fresh acts
  · exact fun acts x _ H _ hH h => h.extend hH x
  · intro acts i op h
    refine h.grow (isPast_causalHistory acts i).lt ?_
      (counterAt_length (s := ((lamport.run acts).replica i).tick.2) rfl)
    rw [pastOfNext]
    simp [Action.source, Action.site]
  · rintro acts i source j sender hsender h h'
    have hH := (isPast_causalHistory acts i).union (isPast_causalPast acts source)
    obtain ⟨hcounter, -⟩ :=
      LamportClock.onReceive_of_nonneg ((lamport.run acts).replica i) h'.nonneg
    show Heights _ _ (LamportClock.onReceive _ sender.counter).2.counter
    rw [hcounter]
    refine (h.union h').grow hH.lt rfl ?_
    rw [← hcounter, hsender]
    exact counterAt_length rfl

/-- The counter of an event is the one its node is left with, and heads the event's past. -/
theorem heights_counterAt {b : ℕ} (hb : b < acts.length) :
    Heights acts (causalPast acts b) (counterAt acts b) := by
  have hlength : b < (lamport.run acts).snapshots.length := by
    rwa [lamport.length_snapshots_run]
  have hsnapshot := List.getElem?_eq_getElem hlength
  obtain ⟨-, h⟩ := (heights_run acts).2 b _ hsnapshot
  rw [counterAt, hsnapshot]
  exact h

theorem counterAt_lt_of_happensBefore {a b : ℕ} (h : HappensBefore acts a b) :
    counterAt acts a < counterAt acts b := by
  have hb := h.lt_length
  exact (heights_counterAt hb).lt b (mem_causalPast_self hb) a
    ((mem_causalPast_iff_happensBefore hb).mpr (Or.inr h)) h.lt.ne

/-- An event is the first of its chain, or has a cause one below it. -/
theorem counterAt_eq_one_or {b : ℕ} (hb : b < acts.length) : counterAt acts b = 1 ∨
    ∃ a, HappensBefore acts a b ∧ counterAt acts b = counterAt acts a + 1 := by
  refine ((heights_counterAt hb).cause b (mem_causalPast_self hb)).imp_right ?_
  rintro ⟨a, ha, hne, heq⟩
  exact ⟨a, ((mem_causalPast_iff_happensBefore hb).mp ha).resolve_left hne, heq⟩

/-! ### Chains of causes -/

/-- A list of events, each a cause of the next, that ends in the event `b`. -/
def ChainTo (acts : List (Action ℕ Unit)) (chain : List ℕ) (b : ℕ) : Prop :=
  chain.IsChain (HappensBefore acts) ∧ chain.getLast? = some b

/-- A chain is no longer than the counter it ends with. -/
theorem ChainTo.length_le {chain : List ℕ} {b : ℕ} (hb : b < acts.length)
    (h : ChainTo acts chain b) : (chain.length : ℤ) ≤ counterAt acts b := by
  induction chain using List.reverseRecOn generalizing b with
  | nil => exact absurd h.2 (by simp)
  | append_singleton chain last ih =>
    obtain rfl : last = b := by simpa using h.2
    rw [List.length_append, List.length_singleton]
    cases hlast : chain.getLast? with
    | none =>
      rw [List.getLast?_eq_none_iff.mp hlast]
      exact (heights_counterAt hb).pos last (mem_causalPast_self hb)
    | some a =>
      obtain ⟨hchain, -, hlink⟩ := List.isChain_append.mp h.1
      have hab : HappensBefore acts a last := hlink a hlast last rfl
      have hle := ih (hab.lt.trans hb) ⟨hchain, hlast⟩
      have hlt := counterAt_lt_of_happensBefore hab
      push_cast
      omega

/-- There is a chain as long as the counter. -/
theorem exists_chainTo {b : ℕ} (hb : b < acts.length) :
    ∃ chain, ChainTo acts chain b ∧ (chain.length : ℤ) = counterAt acts b := by
  induction b using Nat.strong_induction_on with
  | _ b ih =>
    rcases counterAt_eq_one_or hb with hone | ⟨a, hab, heq⟩
    · exact ⟨[b], ⟨List.isChain_singleton b, rfl⟩, hone.symm⟩
    · obtain ⟨chain, ⟨hchain, hlast⟩, hlength⟩ := ih a hab.lt (hab.lt.trans hb)
      refine ⟨chain ++ [b], ⟨?_, by simp⟩, ?_⟩
      · refine List.isChain_append.mpr ⟨hchain, List.isChain_singleton b, ?_⟩
        rintro x hx y hy
        rw [hlast] at hx
        obtain rfl := Option.some.inj hx
        obtain rfl := Option.some.inj hy
        exact hab
      · rw [List.length_append, List.length_singleton, heq, ← hlength]
        push_cast
        rfl

/-- **The counter of an event** is the length of the longest chain of causes that ends in it, in
every run of any nodes, in whatever order counters are received. -/
theorem counterAt_isGreatest (acts : List (Action ℕ Unit)) (b : Fin acts.length) :
    IsGreatest {n : ℤ | ∃ chain, ChainTo acts chain b ∧ (chain.length : ℤ) = n}
      (counterAt acts b) := by
  refine ⟨exists_chainTo b.isLt, ?_⟩
  rintro n ⟨chain, hchain, rfl⟩
  exact hchain.length_le b.isLt

/-! ### Stamps -/

/-- Clocks keep the id of their node, and an event leaves the clock of its node. -/
theorem nodeId_run (acts : List (Action ℕ Unit)) :
    (∀ i : ℕ, ((lamport.run acts).replica i).nodeId = i) ∧
      ∀ (a : ℕ) (clock : LamportClock) (x : Action ℕ Unit),
        (lamport.run acts).snapshots[a]? = some clock → acts[a]? = some x →
          clock.nodeId = x.site := by
  induction acts using List.reverseRecOn with
  | nil => exact ⟨fun _ => rfl, fun a clock x h => by cases h⟩
  | append_singleton acts x ih =>
    obtain ⟨hreplica, hsnapshot⟩ := ih
    obtain ⟨s, hrun, hs⟩ : ∃ s, lamport.run (acts ++ [x]) = (lamport.run acts).put x.site s ∧
        s.nodeId = x.site := by
      rw [lamport.run_append_singleton]
      cases x with
      | update i op => exact ⟨_, rfl, hreplica i⟩
      | merge i source =>
        exact ⟨_, rfl, (LamportClock.nodeId_onReceive _ _).trans (hreplica i)⟩
    rw [hrun]
    constructor
    · intro i
      rw [World.replica_put]
      split
      · next hi => rw [hs, hi]
      · exact hreplica i
    · intro a clock y hclock hy
      rcases getElem?_append_singleton_eq_some.mp hclock with hclock | ⟨ha, rfl⟩
      · rcases getElem?_append_singleton_eq_some.mp hy with hy | ⟨ha, -⟩
        · exact hsnapshot a clock y hclock hy
        · have hlt := (List.getElem?_eq_some_iff.mp hclock).1
          rw [lamport.length_snapshots_run, ha] at hlt
          exact absurd hlt (lt_irrefl _)
      · rw [ha, lamport.length_snapshots_run, List.getElem?_concat_length] at hy
        rw [hs, Option.some.inj hy]

theorem stampAt_eq {a : ℕ} {x : Action ℕ Unit} (hx : acts[a]? = some x) :
    stampAt acts a = (counterAt acts a, (x.site : ℤ)) := by
  have ha := (List.getElem?_eq_some_iff.mp hx).1
  rw [← lamport.length_snapshots_run acts] at ha
  have hsnapshot := List.getElem?_eq_getElem ha
  rw [stampAt, counterAt, hsnapshot, Option.map_some, Option.getD_some, LamportClock.stamp,
    (nodeId_run acts).2 a _ x hsnapshot hx]
  rfl

/-- Events at one node differ in their counters, events at two nodes in their nodes. -/
theorem stampAt_injective {a b : Fin acts.length} (hne : a ≠ b) :
    stampAt acts a ≠ stampAt acts b := by
  have ha := List.getElem?_eq_getElem a.isLt
  have hb := List.getElem?_eq_getElem b.isLt
  rw [stampAt_eq ha, stampAt_eq hb]
  intro heq
  obtain ⟨hcounter, hsite⟩ := Prod.mk.inj heq
  have hsite : (acts[a.val]).site = (acts[b.val]).site := Int.ofNat_inj.mp hsite
  rcases lt_or_gt_of_ne hne with hlt | hlt
  · exact (counterAt_lt_of_happensBefore
      (.single ⟨hlt, _, _, ha, hb, Or.inl hsite⟩)).ne hcounter
  · exact (counterAt_lt_of_happensBefore
      (.single ⟨hlt, _, _, hb, ha, Or.inl hsite.symm⟩)).ne hcounter.symm

/-- A counter that is sent is not negative, so no receipt is refused. -/
theorem counter_sender_nonneg (acts : List (Action ℕ Unit)) (i source : ℕ) :
    0 ≤ ((lamport.run acts).snapshots.getD source (lamport.init i)).counter := by
  rw [List.getD_eq_getElem?_getD]
  cases hs : (lamport.run acts).snapshots[source]? with
  | none => exact le_rfl
  | some clock =>
    obtain ⟨-, h⟩ := (heights_run acts).2 source clock hs
    exact h.nonneg

theorem answer_eq (acts : List (Action ℕ Unit)) (a : ℕ) (e : Action ℕ Unit × Except RelayError ℤ)
    (he : (lamport.events acts)[a]? = some e) : e.2 = .ok (counterAt acts a) := by
  induction acts using List.reverseRecOn with
  | nil => cases he
  | append_singleton acts x ih =>
    rw [lamport.events_append_singleton] at he
    rcases getElem?_append_singleton_eq_some.mp he with he | ⟨ha, rfl⟩
    · have ha := (List.getElem?_eq_some_iff.mp he).1
      rw [lamport.length_events] at ha
      rw [counterAt_append ha]
      exact ih he
    · rw [lamport.length_events] at ha
      rw [ha]
      cases x with
      | update i op => rw [counterAt_length (s := ((lamport.run acts).replica i).tick.2) rfl]; rfl
      | merge i source =>
        rw [counterAt_length (s := (((lamport.run acts).replica i).onReceive
          ((lamport.run acts).snapshots.getD source (lamport.init i)).counter).2) rfl]
        exact (LamportClock.onReceive_of_nonneg _ (counter_sender_nonneg acts i source)).2

/-- **Stamps order all events.** In every run no receipt is refused, causes come before their
effects, and of any two events exactly one comes before the other. -/
theorem stampAt_total_order (acts : List (Action ℕ Unit)) :
    (∀ e ∈ lamport.events acts, ∃ counter, e.2 = .ok counter) ∧
      (∀ a b, HappensBefore acts a b →
        LamportClock.happensBefore (stampAt acts a) (stampAt acts b) = true) ∧
      ∀ a b : Fin acts.length, a ≠ b →
        LamportClock.happensBefore (stampAt acts a) (stampAt acts b) =
          !LamportClock.happensBefore (stampAt acts b) (stampAt acts a) := by
  refine ⟨fun e he => ?_, fun a b hab => ?_, fun a b hne => ?_⟩
  · obtain ⟨a, ha⟩ := List.mem_iff_getElem?.mp he
    exact ⟨_, answer_eq acts a e ha⟩
  · have hb := hab.lt_length
    rw [stampAt_eq (List.getElem?_eq_getElem (hab.lt.trans hb)),
      stampAt_eq (List.getElem?_eq_getElem hb), LamportClock.happensBefore_iff]
    exact Or.inl (counterAt_lt_of_happensBefore hab)
  · have hstamps : toLex (stampAt acts a) ≠ toLex (stampAt acts b) := stampAt_injective hne
    rw [LamportClock.happensBefore, LamportClock.happensBefore]
    rcases lt_or_gt_of_ne hstamps with hlt | hlt
    · rw [decide_eq_true hlt, decide_eq_false hlt.not_gt]
      rfl
    · rw [decide_eq_true hlt, decide_eq_false hlt.not_gt]
      rfl

end Relay
