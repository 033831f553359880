import Mathlib.Data.List.Induction
import Mathlib.Order.Basic

/-!
# Runs of a stateful component

A component with mutable state is a function that takes a state and a call and gives back an
answer and the next state. A run is a list of calls made one after another; it has a *trace*,
the calls with their answers in order, and a *final* state.

The answer and the next state are returned side by side, so a call that fails still has a next
state. Whether a failing call leaves the state alone is then a fact about the component and not
an artefact of the encoding.

## Guarded runs

Many properties are about the runs in which every call meets some condition on the state it is
made in. `Guarded ok s calls` says that, and the induction rules below take the guard as a
parameter. The unconditional case is a guard that is always true.

## Main definitions

* `Machine`, with `Machine.final` and `Machine.trace`
* `Machine.Guarded`: every call of a run meets a condition on the state it is made in
* `runAll`: steps that may fail, made one after another
* `Justified`: every event of a list is accounted for by the events before it
* `Occurs`: some event of a list stands in a relation to the events before it
* `Machine.IsLane`: a part of the state that only the calls with one key act on

## Main results

* `Machine.trace_induction`, `trace_induction_of`: what holds of the empty trace and survives one
  more call holds of every trace together with the state it ends in
* `Machine.guarded_iff_trace`: when a guard is not only enough for a property of traces but exact
* `Machine.invariant`: the same for a property of states alone
* `Machine.trace_always`, `always`: both for what every call keeps, with no guard
* `Machine.justified_trace`: events of a run by the answers that are given
* `Machine.monotone`, `monotone_final`: what never shrinks in one call never shrinks in a run
* `Machine.existsUnique_crossing`: what no call undoes comes about in exactly one call
* `Machine.guarded_iff_forall_mem_trace`: a condition on every event of a trace, as a guard
* `runAll_eq`: what steps that may fail keep as long as they meet a condition
* `IsLane.filter_trace_eq`, `IsLane.view_final_eq`: a component made of independent lanes, seen
  along one of them
* `eq_or_rel_getLast`: a relation between the elements of a list, at its last
* `justified_iff_pairwise`: a relation between any two events, as a condition on each
* `justified_iff_forall_past`: when a condition on every step is exact for a property of every
  state along the way
-/

namespace Relay

/-- Every event of the list stands in the relation `P` to the events before it. -/
def Justified {ε : Type*} (P : List ε → ε → Prop) (events : List ε) : Prop :=
  ∀ past e future, events = past ++ e :: future → P past e

theorem justified_nil {ε : Type*} (P : List ε → ε → Prop) : Justified P [] := by
  intro past e future h
  simp at h

/-- One more event has to be accounted for by all the others. -/
theorem justified_append_singleton {ε : Type*} {P : List ε → ε → Prop} {events : List ε} {e : ε} :
    Justified P (events ++ [e]) ↔ Justified P events ∧ P events e := by
  constructor
  · intro h
    refine ⟨fun past d future hsplit => h past d (future ++ [e]) ?_, h events e [] rfl⟩
    rw [hsplit, List.append_assoc, List.cons_append]
  · rintro ⟨h, he⟩ past d future hsplit
    rcases List.eq_nil_or_concat future with rfl | ⟨future, d', rfl⟩
    · obtain ⟨rfl, hd⟩ := List.append_inj' hsplit rfl
      exact (List.cons.inj hd).1 ▸ he
    · rw [List.concat_eq_append, ← List.cons_append, ← List.append_assoc] at hsplit
      exact h past d future (List.append_inj' hsplit rfl).1

/-- Some event of the list stands in the relation `P` to the events before it. -/
def Occurs {ε : Type*} (P : List ε → ε → Prop) (events : List ε) : Prop :=
  ∃ past e future, events = past ++ e :: future ∧ P past e

theorem occurs_iff_not_justified {ε : Type*} {P : List ε → ε → Prop} {events : List ε} :
    Occurs P events ↔ ¬ Justified (fun past e => ¬ P past e) events := by
  simp only [Occurs, Justified, not_forall, not_not, exists_prop]

theorem not_occurs_nil {ε : Type*} (P : List ε → ε → Prop) : ¬ Occurs P [] :=
  fun h => occurs_iff_not_justified.mp h (justified_nil _)

/-- With one more event, it occurs among the others or is the one. -/
theorem occurs_append_singleton {ε : Type*} {P : List ε → ε → Prop} {events : List ε} {e : ε} :
    Occurs P (events ++ [e]) ↔ Occurs P events ∨ P events e := by
  rw [occurs_iff_not_justified, occurs_iff_not_justified, justified_append_singleton, not_and_or,
    not_not]

/-- What holds of every event of a list and of one more. -/
theorem forall_mem_append_singleton {ε : Type*} {P : ε → Prop} {events : List ε} {e : ε} :
    (∀ d ∈ events ++ [e], P d) ↔ (∀ d ∈ events, P d) ∧ P e := by
  rw [List.forall_mem_append, List.forall_mem_singleton]

/-- A relation between any two events of a list, and of each to one more. -/
theorem pairwise_append_singleton {ε : Type*} {R : ε → ε → Prop} {events : List ε} {e : ε} :
    (events ++ [e]).Pairwise R ↔ events.Pairwise R ∧ ∀ d ∈ events, R d e := by
  rw [List.pairwise_append]
  simp

theorem exists_head?_eq_some {α : Type*} {l : List α} {x : α} (hx : x ∈ l) :
    ∃ first, l.head? = some first :=
  Option.isSome_iff_exists.mp (List.isSome_head?.mpr (List.ne_nil_of_mem hx))

theorem exists_getLast?_eq_some {α : Type*} {l : List α} {x : α} (hx : x ∈ l) :
    ∃ last, l.getLast? = some last :=
  Option.isSome_iff_exists.mp (List.getLast?_isSome.mpr (List.ne_nil_of_mem hx))

/-- Every element of a list is its last, or stands in the list's relation to it. -/
theorem eq_or_rel_getLast {α : Type*} {R : α → α → Prop} {l : List α} (h : l.Pairwise R)
    {x last : α} (hlast : l.getLast? = some last) (hx : x ∈ l) : x = last ∨ R x last := by
  obtain ⟨init, rfl⟩ := List.getLast?_eq_some_iff.mp hlast
  rcases List.mem_append.mp hx with hx | hx
  · exact Or.inr ((pairwise_append_singleton.mp h).2 x hx)
  · exact Or.inl (List.mem_singleton.mp hx)

/-- An element of a list with one more at its end. -/
theorem getElem?_append_singleton_eq_some {α : Type*} {l : List α} {x y : α} {k : ℕ} :
    (l ++ [x])[k]? = some y ↔ l[k]? = some y ∨ k = l.length ∧ x = y := by
  rcases Nat.lt_trichotomy k l.length with hk | rfl | hk
  · rw [List.getElem?_append_left hk]
    simp [Nat.ne_of_lt hk]
  · simp
  · rw [List.getElem?_eq_none (by rw [List.length_append]; exact hk),
      List.getElem?_eq_none (Nat.le_of_lt hk)]
    simp [Nat.ne_of_gt hk]

/-- Every event stands in a relation to each of those before it. -/
theorem justified_iff_pairwise {ε : Type*} {R : ε → ε → Prop} {events : List ε} :
    Justified (fun past e => ∀ d ∈ past, R d e) events ↔ events.Pairwise R := by
  induction events using List.reverseRecOn with
  | nil => exact iff_of_true (justified_nil _) List.Pairwise.nil
  | append_singleton events e ih =>
    rw [justified_append_singleton, ih, pairwise_append_singleton]

/-- **The exact step rule.** If, after a past that meets `B`, the condition `A` on the next event
says exactly that the past with the event added meets `B` again, then every event meets `A`
exactly when every past along the list meets `B`. -/
theorem justified_iff_forall_past {ε : Type*} {A : List ε → ε → Prop} {B : List ε → Prop}
    {events : List ε} (nil : B [])
    (exact : ∀ past e, past ++ [e] <+: events → B past → (A past e ↔ B (past ++ [e]))) :
    Justified A events ↔ ∀ past, past <+: events → B past := by
  induction events using List.reverseRecOn with
  | nil =>
    refine iff_of_true (justified_nil A) fun past hpast => ?_
    rw [List.prefix_nil.mp hpast]
    exact nil
  | append_singleton events e ih =>
    have hinit : events <+: events ++ [e] := List.prefix_append events [e]
    have ih := ih fun past d hpast => exact past d (hpast.trans hinit)
    have hlast := exact events e List.prefix_rfl
    rw [justified_append_singleton, ih]
    constructor
    · rintro ⟨hB, hA⟩ past hpast
      rcases List.prefix_concat_iff.mp hpast with rfl | hpast
      · exact (hlast (hB events List.prefix_rfl)).mp hA
      · exact hB past hpast
    · intro hB
      have hevents : B events := hB events hinit
      exact ⟨fun past hpast => hB past (hpast.trans hinit),
        (hlast hevents).mpr (hB _ List.prefix_rfl)⟩

/-- A sequential component with states `σ`, calls `ι` and answers `ο`. -/
structure Machine (σ ι ο : Type*) where
  /-- One call: the answer, and the state afterwards. -/
  step : σ → ι → ο × σ

namespace Machine

variable {σ ι ο : Type*} (m : Machine σ ι ο)

/-- The state after a list of calls. -/
def final (s : σ) : List ι → σ
  | [] => s
  | i :: is => final (m.step s i).2 is

/-- The calls of a run with their answers, oldest first. -/
def trace (s : σ) : List ι → List (ι × ο)
  | [] => []
  | i :: is => (i, (m.step s i).1) :: trace (m.step s i).2 is

/-- Every call of the run meets `ok` in the state it is made in. -/
def Guarded (ok : σ → ι → Prop) (s : σ) : List ι → Prop
  | [] => True
  | i :: is => ok s i ∧ Guarded ok (m.step s i).2 is

instance decidableGuarded (ok : σ → ι → Prop) [∀ s i, Decidable (ok s i)] :
    ∀ s is, Decidable (m.Guarded ok s is)
  | _, [] => inferInstanceAs (Decidable True)
  | s, i :: is =>
    have := decidableGuarded ok (m.step s i).2 is
    inferInstanceAs (Decidable (ok s i ∧ m.Guarded ok (m.step s i).2 is))

@[simp] theorem final_nil (s : σ) : m.final s [] = s := rfl

@[simp] theorem final_cons (s : σ) (i : ι) (is : List ι) :
    m.final s (i :: is) = m.final (m.step s i).2 is := rfl

@[simp] theorem trace_nil (s : σ) : m.trace s [] = [] := rfl

@[simp] theorem trace_cons (s : σ) (i : ι) (is : List ι) :
    m.trace s (i :: is) = (i, (m.step s i).1) :: m.trace (m.step s i).2 is := rfl

@[simp] theorem guarded_nil (ok : σ → ι → Prop) (s : σ) : m.Guarded ok s [] := trivial

@[simp] theorem guarded_cons (ok : σ → ι → Prop) (s : σ) (i : ι) (is : List ι) :
    m.Guarded ok s (i :: is) ↔ ok s i ∧ m.Guarded ok (m.step s i).2 is := Iff.rfl

theorem final_append (s : σ) (is js : List ι) :
    m.final s (is ++ js) = m.final (m.final s is) js := by
  induction is generalizing s with
  | nil => rfl
  | cons i is ih => exact ih (m.step s i).2

theorem trace_append (s : σ) (is js : List ι) :
    m.trace s (is ++ js) = m.trace s is ++ m.trace (m.final s is) js := by
  induction is generalizing s with
  | nil => rfl
  | cons i is ih => simp [ih (m.step s i).2]

theorem final_append_singleton (s : σ) (is : List ι) (i : ι) :
    m.final s (is ++ [i]) = (m.step (m.final s is) i).2 :=
  m.final_append s is [i]

theorem trace_append_singleton (s : σ) (is : List ι) (i : ι) :
    m.trace s (is ++ [i]) = m.trace s is ++ [(i, (m.step (m.final s is) i).1)] :=
  m.trace_append s is [i]

/-- What is read off the events of a run, with one more call. -/
theorem flatMap_trace_append_singleton {α : Type*} (f : ι × ο → List α) (s : σ) (is : List ι)
    (i : ι) : (m.trace s (is ++ [i])).flatMap f =
      (m.trace s is).flatMap f ++ f (i, (m.step (m.final s is) i).1) := by
  rw [trace_append_singleton, List.flatMap_append, List.flatMap_singleton]

theorem filterMap_trace_append_singleton {α : Type*} (f : ι × ο → Option α) (s : σ) (is : List ι)
    (i : ι) : (m.trace s (is ++ [i])).filterMap f =
      (m.trace s is).filterMap f ++ (f (i, (m.step (m.final s is) i).1)).toList := by
  rw [trace_append_singleton, List.filterMap_append]
  rfl

/-- The calls of a trace are the calls of the run. -/
@[simp] theorem map_fst_trace (s : σ) (is : List ι) : (m.trace s is).map Prod.fst = is := by
  induction is generalizing s with
  | nil => rfl
  | cons i is ih => rw [trace_cons, List.map_cons, ih]

@[simp] theorem length_trace (s : σ) (is : List ι) : (m.trace s is).length = is.length := by
  rw [← List.length_map, map_fst_trace]

/-- The answer to a call of the run is given in the state that the calls before it lead to. -/
theorem getElem?_trace (s : σ) (is : List ι) (j : ℕ) :
    (m.trace s is)[j]? = is[j]?.map fun i => (i, (m.step (m.final s (is.take j)) i).1) := by
  induction is generalizing s j with
  | nil => rfl
  | cons i is ih =>
    cases j with
    | zero => rfl
    | succ j => exact ih _ j

theorem final_take_succ (s : σ) {is : List ι} {j : ℕ} {i : ι} (h : is[j]? = some i) :
    m.final s (is.take (j + 1)) = (m.step (m.final s (is.take j)) i).2 := by
  rw [List.take_add_one, h]
  exact m.final_append_singleton s (is.take j) i

theorem guarded_append (ok : σ → ι → Prop) (s : σ) (is js : List ι) :
    m.Guarded ok s (is ++ js) ↔ m.Guarded ok s is ∧ m.Guarded ok (m.final s is) js := by
  induction is generalizing s with
  | nil => simp
  | cons i is ih => simp [ih (m.step s i).2, and_assoc]

/-- A run is guarded when each call meets the condition in the state that the calls before it lead
to. -/
theorem guarded_iff_getElem? (ok : σ → ι → Prop) (s : σ) (is : List ι) :
    m.Guarded ok s is ↔ ∀ j i, is[j]? = some i → ok (m.final s (is.take j)) i := by
  induction is generalizing s with
  | nil => exact iff_of_true trivial fun j i h => by cases h
  | cons i is ih =>
    rw [guarded_cons, ih]
    constructor
    · rintro ⟨hi, his⟩ (_ | j) i' h
      · obtain rfl := Option.some.inj h
        exact hi
      · exact his j i' h
    · intro h
      exact ⟨h 0 i rfl, fun j i' hi' => h (j + 1) i' hi'⟩

theorem guarded_true (s : σ) (is : List ι) : m.Guarded (fun _ _ => True) s is := by
  induction is generalizing s with
  | nil => trivial
  | cons i is ih => exact ⟨trivial, ih _⟩

theorem guarded_of_forall_mem {ok : ι → Prop} {s : σ} {is : List ι} (h : ∀ i ∈ is, ok i) :
    m.Guarded (fun _ i => ok i) s is := by
  induction is generalizing s with
  | nil => trivial
  | cons i is ih =>
    exact ⟨h i List.mem_cons_self, ih fun j hj => h j (List.mem_cons_of_mem i hj)⟩

/-- A condition on the call and its answer, met by every event of a trace, as a guard. -/
theorem guarded_iff_forall_mem_trace {s : σ} {is : List ι} {Q : ι × ο → Prop} :
    m.Guarded (fun s i => Q (i, (m.step s i).1)) s is ↔ ∀ e ∈ m.trace s is, Q e := by
  induction is generalizing s with
  | nil => simp
  | cons i is ih => simp [ih]

/-- A guarded run is one in which every call meets the guard after the calls before it. -/
theorem guarded_iff_justified {ok : σ → ι → Prop} {s : σ} {is : List ι} :
    m.Guarded ok s is ↔ Justified (fun past i => ok (m.final s past) i) is := by
  induction is using List.reverseRecOn with
  | nil => exact iff_of_true trivial (justified_nil _)
  | append_singleton is i ih =>
    rw [guarded_append, justified_append_singleton, ih, guarded_cons]
    simp only [guarded_nil, and_true]

/-! ### Induction over runs -/

variable {m}

/-- **The run rule.** A relation between the trace so far and the state it led to holds at the
end of every guarded run, if it holds at the start and one more call keeps it. -/
theorem trace_induction {ok : σ → ι → Prop} {s₀ : σ} {P : List (ι × ο) → σ → Prop}
    (init : P [] s₀)
    (step : ∀ past s i, P past s → ok s i → P (past ++ [(i, (m.step s i).1)]) (m.step s i).2)
    {is : List ι} (h : m.Guarded ok s₀ is) : P (m.trace s₀ is) (m.final s₀ is) := by
  induction is using List.reverseRecOn with
  | nil => exact init
  | append_singleton is i ih =>
    obtain ⟨hpre, hi, -⟩ := (m.guarded_append ok s₀ is [i]).mp h
    rw [trace_append_singleton, final_append_singleton]
    exact step _ _ i (ih hpre) hi

/-- The run rule for a component whose calls are described by a relation: it is enough that the
relation keeps the property. The guard may be used to establish the relation. -/
theorem trace_induction_of {R : σ → ι → ο → σ → Prop} {ok : σ → ι → Prop}
    (hR : ∀ s i, ok s i → R s i (m.step s i).1 (m.step s i).2) {s₀ : σ}
    {P : List (ι × ο) → σ → Prop} (init : P [] s₀)
    (step : ∀ past s i o s', P past s → R s i o s' → P (past ++ [(i, o)]) s')
    {is : List ι} (h : m.Guarded ok s₀ is) : P (m.trace s₀ is) (m.final s₀ is) :=
  trace_induction init (fun past s i hP hi => step past s i _ _ hP (hR s i hi)) h

/-- **The exact guard rule.** If, as long as `P` holds, the guard of a call says exactly that the
trace with the call added meets `Q`, then a run is guarded exactly when its trace meets `Q`. -/
theorem guarded_iff_trace {ok : σ → ι → Prop} {s₀ : σ} {P : List (ι × ο) → σ → Prop}
    {Q : List (ι × ο) → Prop} (init : P [] s₀) (nil : Q [])
    (of_append : ∀ past e, Q (past ++ [e]) → Q past)
    (exact : ∀ past s i, P past s → (ok s i ↔ Q (past ++ [(i, (m.step s i).1)])))
    (step : ∀ past s i, P past s → ok s i → P (past ++ [(i, (m.step s i).1)]) (m.step s i).2)
    {is : List ι} : m.Guarded ok s₀ is ↔ Q (m.trace s₀ is) := by
  induction is using List.reverseRecOn with
  | nil => exact iff_of_true trivial nil
  | append_singleton is i ih =>
    rw [guarded_append, trace_append_singleton]
    constructor
    · rintro ⟨hpre, hi, -⟩
      exact (exact _ _ i (trace_induction init step hpre)).mp hi
    · intro hQ
      have hpre := ih.mpr (of_append _ _ hQ)
      exact ⟨hpre, (exact _ _ i (trace_induction init step hpre)).mpr hQ, trivial⟩

/-- A property of states that one call keeps holds after every guarded run. -/
theorem invariant {ok : σ → ι → Prop} {s₀ : σ} {P : σ → Prop} (init : P s₀)
    (step : ∀ s i, P s → ok s i → P (m.step s i).2) {is : List ι} (h : m.Guarded ok s₀ is) :
    P (m.final s₀ is) :=
  trace_induction (P := fun _ s => P s) init (fun _ s i => step s i) h

/-- Every event of a run is accounted for by those before it, if every answer is that is given after
any run. -/
theorem justified_trace {s₀ : σ} {Q : List (ι × ο) → ι × ο → Prop}
    (answer : ∀ is i, Q (m.trace s₀ is) (i, (m.step (m.final s₀ is) i).1)) (is : List ι) :
    Justified Q (m.trace s₀ is) := by
  induction is using List.reverseRecOn with
  | nil => exact justified_nil Q
  | append_singleton is i ih =>
    rw [trace_append_singleton]
    exact justified_append_singleton.mpr ⟨ih, answer is i⟩

/-- The run rule for what every call keeps, whatever the call is. -/
theorem trace_always {s₀ : σ} {P : List (ι × ο) → σ → Prop} (init : P [] s₀)
    (step : ∀ past s i, P past s → P (past ++ [(i, (m.step s i).1)]) (m.step s i).2)
    (is : List ι) : P (m.trace s₀ is) (m.final s₀ is) :=
  trace_induction init (fun past s i h _ => step past s i h) (m.guarded_true s₀ is)

theorem always {s₀ : σ} {P : σ → Prop} (init : P s₀) (step : ∀ s i, P s → P (m.step s i).2)
    (is : List ι) : P (m.final s₀ is) :=
  trace_always (P := fun _ s => P s) init (fun _ => step) is

/-- A quantity that no call changes is the same at the end of every run. -/
theorem final_eq_of_step {α : Type*} (f : σ → α) (step : ∀ s i, f (m.step s i).2 = f s) (s₀ : σ)
    (is : List ι) : f (m.final s₀ is) = f s₀ :=
  always (P := fun s => f s = f s₀) rfl (fun s i hs => (step s i).trans hs) is

/-- A quantity that no call of the run lowers is no lower at the end of it. -/
theorem monotone {α : Type*} [Preorder α] {ok : σ → ι → Prop} {s₀ : σ} {f : σ → α}
    (step : ∀ s i, ok s i → f s ≤ f (m.step s i).2) {is : List ι} (h : m.Guarded ok s₀ is) :
    f s₀ ≤ f (m.final s₀ is) :=
  invariant (P := fun s => f s₀ ≤ f s) le_rfl (fun s i hs hi => hs.trans (step s i hi)) h

/-- A quantity that no call lowers after any calls before it is no lower after more calls. -/
theorem monotone_final {α : Type*} [Preorder α] {s₀ : σ} {f : σ → α}
    (step : ∀ is i, f (m.final s₀ is) ≤ f (m.step (m.final s₀ is) i).2) {is js : List ι}
    (h : is <+: js) : f (m.final s₀ is) ≤ f (m.final s₀ js) := by
  obtain ⟨rest, rfl⟩ := h
  induction rest using List.reverseRecOn with
  | nil => rw [List.append_nil]
  | append_singleton rest i ih =>
    rw [← List.append_assoc, final_append_singleton]
    exact ih.trans (step _ i)

section Lanes

variable {κ τ : Type*}

/-- The calls with one key act on a part of the state as another component would, and all other
calls leave that part alone. -/
structure IsLane (m : Machine σ ι ο) (key : ι → κ) (k : κ) (lane : Machine τ ι ο) (view : σ → τ) :
    Prop where
  own : ∀ s i, key i = k → (lane.step (view s) i).1 = (m.step s i).1 ∧
    (lane.step (view s) i).2 = view (m.step s i).2
  other : ∀ s i, key i ≠ k → view (m.step s i).2 = view s

variable [DecidableEq κ] {key : ι → κ} {k : κ} {lane : Machine τ ι ο} {view : σ → τ}

/-- **The lane rule.** The events of a run with one key are a run of the lane. -/
theorem IsLane.filter_trace_eq (h : m.IsLane key k lane view) (s : σ) (is : List ι) :
    (m.trace s is).filter (fun e => key e.1 = k) =
      lane.trace (view s) (is.filter fun i => key i = k) := by
  induction is generalizing s with
  | nil => rfl
  | cons i is ih =>
    by_cases hi : key i = k
    · obtain ⟨hanswer, hview⟩ := h.own s i hi
      rw [trace_cons, List.filter_cons_of_pos (by simpa using hi), ih,
        List.filter_cons_of_pos (by simpa using hi), trace_cons, hanswer, hview]
    · rw [trace_cons, List.filter_cons_of_neg (by simpa using hi), ih,
        List.filter_cons_of_neg (by simpa using hi), h.other s i hi]

/-- Calls with other keys make no difference to the events with that key. -/
theorem IsLane.filter_trace_eq_trace_filter (h : m.IsLane key k lane view) (s : σ) (is : List ι) :
    (m.trace s is).filter (fun e => key e.1 = k) = m.trace s (is.filter fun i => key i = k) := by
  have halone := h.filter_trace_eq s (is.filter fun i => key i = k)
  rw [List.filter_filter] at halone
  simp only [Bool.and_self] at halone
  rw [h.filter_trace_eq, ← halone]
  refine List.filter_eq_self.mpr fun e he => ?_
  have hmem : e.1 ∈ is.filter fun i => key i = k := by
    rw [← m.map_fst_trace s (is.filter fun i => key i = k)]
    exact List.mem_map_of_mem he
  exact (List.mem_filter.mp hmem).2

/-- The part of the state at the end of a run is where the lane gets by the calls with the key. -/
theorem IsLane.view_final_eq (h : m.IsLane key k lane view) (s : σ) (is : List ι) :
    view (m.final s is) = lane.final (view s) (is.filter fun i => key i = k) := by
  induction is generalizing s with
  | nil => rfl
  | cons i is ih =>
    by_cases hi : key i = k
    · rw [final_cons, ih, List.filter_cons_of_pos (by simpa using hi), final_cons,
        (h.own s i hi).2]
    · rw [final_cons, ih, List.filter_cons_of_neg (by simpa using hi), h.other s i hi]

end Lanes

end Machine

/-! ## Steps that may fail -/

section RunAll

variable {σ ι ε : Type*} {step : σ → ι → Except ε (Option σ)}

/-- Steps made one after another. What is not a state ends them. -/
def runAll (step : σ → ι → Except ε (Option σ)) : σ → List ι → Except ε (Option σ)
  | s, [] => .ok (some s)
  | s, i :: is =>
    match step s i with
    | .ok (some s) => runAll step s is
    | stopped => stopped

/-- If every step that meets a condition leads to a state and keeps a relation between the steps
made and the state they led to, then steps that all meet it lead to a state in that relation. -/
theorem runAll_eq {P : List ι → σ → Prop} {ok : ι → Prop}
    (hstep : ∀ past s i, P past s → ok i → ∃ s', step s i = .ok (some s') ∧ P (past ++ [i]) s')
    (past : List ι) {s : σ} (h : P past s) {is : List ι} (hok : ∀ i ∈ is, ok i) :
    ∃ s', runAll step s is = .ok (some s') ∧ P (past ++ is) s' := by
  induction is generalizing past s with
  | nil => exact ⟨s, rfl, (List.append_nil past).symm ▸ h⟩
  | cons i is ih =>
    obtain ⟨hi, hok⟩ := List.forall_mem_cons.mp hok
    obtain ⟨s₁, hone, h₁⟩ := hstep past s i h hi
    obtain ⟨s', hall, h'⟩ := ih (past ++ [i]) h₁ hok
    refine ⟨s', ?_, List.append_cons past i is ▸ h'⟩
    rw [runAll, hone]
    exact hall

end RunAll

end Relay
