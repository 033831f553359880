import Mathlib.Algebra.Order.Ring.Int
import Mathlib.Data.Finset.Dedup
import Mathlib.Data.Finset.Insert
import Mathlib.Data.List.Nodup
import Relay.Errors
import Relay.Lib.Dict
import Relay.Lib.Machine

/-!
# The sync phase of a group

Once a group has a leader, the leader submits a plan that says which partitions each member
consumes, and every member asks for its slice of it. A plan is accepted from the leader only, for
exactly the members that joined, and if no partition stands in it twice.

So the slices of one plan are disjoint. But members ask at different times, and nothing keeps the
leader from submitting once more in between: a plan is checked on its own and not against what has
been handed out of the plan before. Two members that ask on either side of a second submission may
then be given the same partition. What a second plan has to respect is exact: a partition that a
member was given stays with that member, or goes to nobody (`Respects`).

## Scope

The report on how unevenly the slices are shared is left out.

## Main definitions

* `SyncPhase`, with `submit` and `sliceFor`
* `SyncPhase.Accepts`: the plans that are accepted
* `slices`: what was handed out in a run

## Main results

* `respects_iff_slices_disjoint`: slices of different members are disjoint at every point, whoever
  asks next, exactly when every plan respects what was handed out before
-/

namespace Relay

/-- The sync phase of one generation. -/
structure SyncPhase where
  leader : String
  members : Finset String
  assignment : Dict String (List ℤ) := ∅
  submitted : Bool := false

/-- The loop of `submit`: the first partition that was seen before. -/
def firstRepeated (seen : Finset ℤ) : List ℤ → Option ℤ
  | [] => none
  | p :: parts => if p ∈ seen then some p else firstRepeated (insert p seen) parts

theorem firstRepeated_eq_none_iff {seen : Finset ℤ} {parts : List ℤ} :
    firstRepeated seen parts = none ↔ parts.Nodup ∧ ∀ p ∈ parts, p ∉ seen := by
  induction parts generalizing seen with
  | nil => simp [firstRepeated]
  | cons p parts ih =>
    rw [firstRepeated]
    split
    · next hp => simp [hp]
    · next hp =>
      rw [ih, List.nodup_cons, List.forall_mem_cons]
      simp only [Finset.mem_insert, not_or]
      constructor
      · rintro ⟨hnodup, hparts⟩
        exact ⟨⟨fun hmem => (hparts p hmem).1 rfl, hnodup⟩, hp, fun q hq => (hparts q hq).2⟩
      · rintro ⟨⟨hmem, hnodup⟩, -, hparts⟩
        exact ⟨hnodup, fun q hq => ⟨fun hqp => hmem (hqp ▸ hq), hparts q hq⟩⟩

namespace SyncPhase

/-- `submit`. -/
def submit (phase : SyncPhase) (member : String) (plan : Dict String (List ℤ)) :
    Except RelayError String × SyncPhase :=
  if member ≠ phase.leader then
    (.error (.invalid (s!"{member} is a follower and did not run the "
      ++ "assignor; its map would be a guess, so a non-leader submission is refused")), phase)
  else if plan.keys.toFinset ≠ phase.members then
    (.error (.invalid ("the assignment must cover exactly the members that "
      ++ "joined; a missing member consumes nothing and an extra one strands partitions")), phase)
  else
    match firstRepeated ∅ plan.values.flatten with
    | some p =>
      (.error (.invalid (s!"partition {p} is assigned to two members; "
        ++ "the double owner processes every record twice")), phase)
    | none =>
      (.ok s!"leader {member} submitted a plan for {plan.entries.length} member(s)",
        { phase with assignment := plan, submitted := true })

/-- `slice_for`. -/
def sliceFor (phase : SyncPhase) (member : String) : Except RelayError (List ℤ) :=
  if ¬ phase.submitted then
    .error (.invalid "no assignment submitted yet; the follower waits")
  else if member ∉ phase.members then
    .error (.invalid s!"{member} is not in this generation")
  else .ok (phase.assignment.getD member [])

/-- The plan is the leader's, for the members that joined, and gives no partition twice. -/
def Accepts (phase : SyncPhase) (member : String) (plan : Dict String (List ℤ)) : Prop :=
  member = phase.leader ∧ plan.keys.toFinset = phase.members ∧ plan.values.flatten.Nodup

instance (phase : SyncPhase) (member : String) (plan : Dict String (List ℤ)) :
    Decidable (phase.Accepts member plan) :=
  inferInstanceAs (Decidable (_ ∧ _))

/-- A submission is accepted and replaces the plan, or it is refused and changes nothing. -/
theorem submit_cases (phase : SyncPhase) (member : String) (plan : Dict String (List ℤ)) :
    (phase.Accepts member plan ∧ ∃ note, phase.submit member plan =
        (.ok note, { phase with assignment := plan, submitted := true })) ∨
      ¬ phase.Accepts member plan ∧ ∃ e, phase.submit member plan = (.error e, phase) := by
  rw [submit]
  split
  · next hmember => exact Or.inr ⟨fun h => hmember h.1, _, rfl⟩
  · next hmember =>
    split
    · next hkeys => exact Or.inr ⟨fun h => hkeys h.2.1, _, rfl⟩
    · next hkeys =>
      split
      · next hsome =>
        refine Or.inr ⟨fun h => ?_, _, rfl⟩
        rw [firstRepeated_eq_none_iff.mpr ⟨h.2.2, fun _ _ => Finset.notMem_empty _⟩] at hsome
        cases hsome
      · next hnone =>
        exact Or.inl ⟨⟨not_not.mp hmember, not_not.mp hkeys,
          (firstRepeated_eq_none_iff.mp hnone).1⟩, _, rfl⟩

/-- The slices of an accepted plan are disjoint. -/
theorem Accepts.disjoint {phase : SyncPhase} {member : String} {plan : Dict String (List ℤ)}
    (h : phase.Accepts member plan) {m m' : String} (hne : m ≠ m') :
    (plan.getD m []).Disjoint (plan.getD m' []) := by
  have : Std.Symm (@List.Disjoint ℤ) := ⟨fun _ _ hd => hd.symm⟩
  have hvalues := Dict.pairwise_values_iff.mp (List.nodup_flatten.mp h.2.2).2
  rw [Dict.getD, Dict.getD]
  cases hm : plan.get? m with
  | none => exact List.disjoint_nil_left _
  | some parts =>
    cases hm' : plan.get? m' with
    | none => exact List.disjoint_nil_right _
    | some parts' => exact hvalues m m' parts parts' hne hm hm'

end SyncPhase

/-! ## Runs -/

/-- A call to the sync phase. -/
inductive SyncCall where
  | submit (member : String) (plan : Dict String (List ℤ))
  | sliceFor (member : String)

/-- What a call answers. -/
inductive SyncAnswer where
  | submitted (answer : Except RelayError String)
  | slice (answer : Except RelayError (List ℤ))

/-- The sync phase as a component. -/
def syncPhase : Machine SyncPhase SyncCall SyncAnswer where
  step phase
    | .submit member plan => (phase.submit member plan).map .submitted id
    | .sliceFor member => (.slice (phase.sliceFor member), phase)

/-- The slice that a call returned, with the member it was returned to. -/
def sliceOfEvent : SyncCall × SyncAnswer → Option (String × List ℤ)
  | (.sliceFor member, .slice (.ok parts)) => some (member, parts)
  | _ => none

/-- The slices of a run, in the order they were returned. -/
def slices (phase : SyncPhase) (calls : List SyncCall) : List (String × List ℤ) :=
  (syncPhase.trace phase calls).filterMap sliceOfEvent

/-- Slices of different members have no partition in common. -/
def SlicesDisjoint (given : List (String × List ℤ)) : Prop :=
  ∀ s ∈ given, ∀ s' ∈ given, s.1 ≠ s'.1 → s.2.Disjoint s'.2

/-- An accepted plan gives no partition of an earlier slice to another member. -/
def Respects (phase : SyncPhase) (past : List SyncCall) : SyncCall → Prop
  | .submit member plan => (syncPhase.final phase past).Accepts member plan →
      ∀ s ∈ slices phase past, ∀ m, s.1 ≠ m → s.2.Disjoint (plan.getD m [])
  | .sliceFor _ => True

/-- Slices for a phase in which the plan is one that was accepted, or there is none yet. -/
structure SyncPhase.Planned (phase : SyncPhase) : Prop where
  submitted : phase.submitted = false → phase.assignment = ∅
  members : ∀ m ∉ phase.members, phase.assignment.getD m [] = []
  disjoint : ∀ m m', m ≠ m' → (phase.assignment.getD m []).Disjoint (phase.assignment.getD m' [])

theorem SyncPhase.Planned.step {phase : SyncPhase} (h : phase.Planned) (call : SyncCall) :
    (syncPhase.step phase call).2.Planned := by
  cases call with
  | submit member plan =>
    show (phase.submit member plan).2.Planned
    rcases phase.submit_cases member plan with ⟨haccepts, note, heq⟩ | ⟨-, e, heq⟩
    · rw [heq]
      refine ⟨fun hsubmitted => (by cases hsubmitted), fun m hm => ?_, fun m m' hne => ?_⟩
      · refine Dict.getD_of_not_mem_keys (fun hmem => hm ?_) _
        rw [← haccepts.2.1]
        exact List.mem_toFinset.mpr hmem
      · exact haccepts.disjoint hne
    · rwa [heq]
  | sliceFor member => exact h

/-- What a member is given, or would be given once it joined: its part of the plan, or nothing. -/
theorem SyncPhase.Planned.sliceFor_eq {phase : SyncPhase} (h : phase.Planned) (member : String) :
    phase.sliceFor member = .ok (phase.assignment.getD member []) ∨
      (∃ e, phase.sliceFor member = .error e) ∧ phase.assignment.getD member [] = [] := by
  rw [SyncPhase.sliceFor]
  split
  · next hsubmitted =>
    refine Or.inr ⟨⟨_, rfl⟩, ?_⟩
    rw [h.submitted (Bool.eq_false_iff.mpr hsubmitted)]
    rfl
  · split
    · next hmember => exact Or.inr ⟨⟨_, rfl⟩, h.members member hmember⟩
    · exact Or.inl rfl

/-! ## What a second plan has to respect -/

/-- The slices so far are disjoint, and so they are from what the others would be given now. -/
structure Settled (phase : SyncPhase) (past : List SyncCall) : Prop where
  disjoint : SlicesDisjoint (slices phase past)
  assignment : ∀ s ∈ slices phase past, ∀ m, s.1 ≠ m →
    s.2.Disjoint ((syncPhase.final phase past).assignment.getD m [])

theorem slices_append_singleton (phase : SyncPhase) (past : List SyncCall) (call : SyncCall) :
    slices phase (past ++ [call]) = slices phase past ++
      [(call, (syncPhase.step (syncPhase.final phase past) call).1)].filterMap sliceOfEvent := by
  rw [slices, Machine.trace_append_singleton, List.filterMap_append]
  rfl

theorem final_append_sliceFor (phase : SyncPhase) (past : List SyncCall) (m : String) :
    syncPhase.final phase (past ++ [.sliceFor m]) = syncPhase.final phase past :=
  syncPhase.final_append_singleton phase past (.sliceFor m)

theorem slices_append_sliceFor {phase : SyncPhase} {past : List SyncCall} {m : String}
    {answer : Except RelayError (List ℤ)}
    (h : (syncPhase.final phase past).sliceFor m = answer) :
    slices phase (past ++ [.sliceFor m]) = slices phase past ++
      [(SyncCall.sliceFor m, SyncAnswer.slice answer)].filterMap sliceOfEvent := by
  rw [slices_append_singleton, ← h]
  rfl

/-- Handing out one more slice of the plan there is changes nothing. -/
theorem Settled.sliceFor {phase : SyncPhase} {past : List SyncCall} (h : Settled phase past)
    (hplanned : (syncPhase.final phase past).Planned) (m : String) :
    Settled phase (past ++ [.sliceFor m]) := by
  rcases hplanned.sliceFor_eq m with hok | ⟨⟨e, herror⟩, -⟩
  · have hslices := slices_append_sliceFor hok
    refine ⟨?_, ?_⟩
    · rw [hslices]
      refine forall_mem_append_singleton.mpr ⟨fun s hs => ?_, ?_⟩
      · exact forall_mem_append_singleton.mpr ⟨h.disjoint s hs, h.assignment s hs m⟩
      · refine forall_mem_append_singleton.mpr ⟨fun s hs hne => ?_, fun hne => absurd rfl hne⟩
        exact (h.assignment s hs m hne.symm).symm
    · rw [hslices, final_append_sliceFor]
      exact forall_mem_append_singleton.mpr ⟨h.assignment, hplanned.disjoint m⟩
  · have hslices : slices phase (past ++ [.sliceFor m]) = slices phase past ++ [] :=
      slices_append_sliceFor herror
    rw [List.append_nil] at hslices
    refine ⟨hslices ▸ h.disjoint, ?_⟩
    rw [hslices, final_append_sliceFor]
    exact h.assignment

theorem slices_append_submit (phase : SyncPhase) (past : List SyncCall) (member : String)
    (plan : Dict String (List ℤ)) :
    slices phase (past ++ [.submit member plan]) = slices phase past := by
  rw [slices_append_singleton]
  exact List.append_nil _

/-- **One call.** Where the slices are settled, a call leaves them settled exactly when it respects
them. -/
theorem Settled.respects_iff {phase : SyncPhase} {past : List SyncCall} (h : Settled phase past)
    (hplanned : (syncPhase.final phase past).Planned) (call : SyncCall) :
    Respects phase past call ↔ Settled phase (past ++ [call]) := by
  cases call with
  | sliceFor m => exact iff_of_true trivial (h.sliceFor hplanned m)
  | submit member plan =>
    have hslices := slices_append_submit phase past member plan
    have hfinal : syncPhase.final phase (past ++ [.submit member plan]) =
        ((syncPhase.final phase past).submit member plan).2 :=
      syncPhase.final_append_singleton phase past (.submit member plan)
    rcases (syncPhase.final phase past).submit_cases member plan with
      ⟨haccepts, note, heq⟩ | ⟨hrefused, e, heq⟩
    · rw [heq] at hfinal
      constructor
      · intro hrespects
        refine ⟨hslices ▸ h.disjoint, ?_⟩
        rw [hslices, hfinal]
        exact hrespects haccepts
      · intro hsettled _
        have hassignment := hsettled.assignment
        rwa [hslices, hfinal] at hassignment
    · rw [heq] at hfinal
      refine iff_of_true (fun haccepts => absurd haccepts hrefused) ⟨hslices ▸ h.disjoint, ?_⟩
      rw [hslices, hfinal]
      exact h.assignment

section Fresh

variable (leader : String) (members : Finset String)

theorem planned_final (past : List SyncCall) :
    (syncPhase.final { leader := leader, members := members } past).Planned :=
  Machine.always ⟨fun _ => rfl, fun _ _ => rfl, fun _ _ _ => List.disjoint_nil_left _⟩
    (fun _ call h => h.step call) past

/-- Settled slices are those that stay disjoint whoever asks next. -/
theorem settled_iff (past : List SyncCall) :
    Settled { leader := leader, members := members } past ↔ ∀ next : List String,
      SlicesDisjoint (slices { leader := leader, members := members }
        (past ++ next.map .sliceFor)) := by
  constructor
  · intro h next
    induction next generalizing past with
    | nil =>
      rw [List.map_nil, List.append_nil]
      exact h.disjoint
    | cons m next ih =>
      rw [List.map_cons, List.append_cons]
      exact ih _ (h.sliceFor (planned_final leader members past) m)
  · intro h
    have hpast := h []
    rw [List.map_nil, List.append_nil] at hpast
    refine ⟨hpast, fun s hs m hne => ?_⟩
    rcases (planned_final leader members past).sliceFor_eq m with hok | ⟨-, hnil⟩
    · have hm := h [m]
      rw [List.map_singleton, slices_append_sliceFor hok] at hm
      exact hm s (List.mem_append_left _ hs) _
        (List.mem_append_right _ (List.mem_singleton_self _)) hne
    · rw [hnil]
      exact List.disjoint_nil_right _

/-- **When one generation has one plan.** In a run of submissions and requests by any members, in
any order, the slices that different members are given are disjoint at every point, whoever asks
next, exactly when every accepted plan leaves the partitions of earlier slices with the members that
have them, or gives them to nobody. -/
theorem respects_iff_slices_disjoint (calls : List SyncCall) :
    Justified (Respects { leader := leader, members := members }) calls ↔
      ∀ past, past <+: calls → ∀ next : List String,
        SlicesDisjoint (slices { leader := leader, members := members }
          (past ++ next.map .sliceFor)) := by
  simp only [← settled_iff leader members]
  refine justified_iff_forall_past ?_ fun past call _ h => ?_
  · exact ⟨by simp [SlicesDisjoint, slices], by simp [slices]⟩
  · exact h.respects_iff (planned_final leader members past) call

end Fresh

/-- The leader submits, a member takes its slice, and the leader submits again with the slices
exchanged: the other member is given the same partition. -/
theorem slices_not_disjoint_of_second_plan :
    slices { leader := "a", members := {"a", "b"} }
        [.submit "a" (.ofList [("a", [0]), ("b", [1])]), .sliceFor "a",
          .submit "a" (.ofList [("a", [1]), ("b", [0])]), .sliceFor "b"] =
        [("a", [0]), ("b", [0])] ∧
      ¬ SlicesDisjoint (slices { leader := "a", members := {"a", "b"} }
        [.submit "a" (.ofList [("a", [0]), ("b", [1])]), .sliceFor "a",
          .submit "a" (.ofList [("a", [1]), ("b", [0])]), .sliceFor "b"]) := by
  have hslices : slices { leader := "a", members := {"a", "b"} }
      [.submit "a" (.ofList [("a", [0]), ("b", [1])]), .sliceFor "a",
        .submit "a" (.ofList [("a", [1]), ("b", [0])]), .sliceFor "b"] =
      [("a", [0]), ("b", [0])] := by decide
  refine ⟨hslices, fun h => ?_⟩
  rw [hslices] at h
  exact h ("a", [0]) (by simp) ("b", [0]) (by simp) (by decide) (List.mem_singleton_self 0)
    (List.mem_singleton_self 0)

end Relay
