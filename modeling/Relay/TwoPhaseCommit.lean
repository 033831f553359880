import Mathlib.Algebra.Order.Ring.Int
import Mathlib.Data.Finset.Card
import Relay.Errors
import Relay.Lib.Dict
import Relay.Lib.Machine

/-!
# Two-phase commit

A coordinator collects one vote of every participant, and a vote cannot be changed. Once all have
voted it can decide: commit if all votes are yes, abort otherwise. It may decide again later. A
participant that voted yes applies the verdict once it has heard it, and is blocked until then.

Votes, decisions and what participants ask come in any order, and a participant may or may not have
heard of the decision when it asks. What cannot happen is a split: there is one verdict in a run,
whoever applies it and whenever it is decided again.

## Main definitions

* `TwoPhaseCommit`, with `vote`, `decide` and `participantState`
* `twoPhaseCommit`: the transaction as a component

## Main results

* `one_verdict`: all verdicts of a run are the same, and it is commit exactly if all voted yes
* `participant_answers`: who applies the verdict, and who is blocked
-/

namespace Relay

/-- `YES` and `NO`. -/
inductive Ballot where
  | yes
  | no
  deriving DecidableEq

namespace Ballot

/-- The text of a ballot. -/
def text : Ballot → String
  | yes => "yes"
  | no => "no"

/-- The ballot of a text, if it is one. -/
def ofText (vote : String) : Option Ballot :=
  if vote = "yes" then some yes else if vote = "no" then some no else none

theorem ofText_eq_some_iff {vote : String} {ballot : Ballot} :
    ofText vote = some ballot ↔ vote = ballot.text := by
  rw [ofText]
  cases ballot with
  | yes => by_cases h : vote = "yes" <;> simp [h, text]
  | no => by_cases h : vote = "yes" <;> simp [h, text]

theorem text_injective : Function.Injective text := by
  intro a b h
  cases a <;> cases b <;> simp [text] at h ⊢

end Ballot

/-- `COMMIT` and `ABORT`. -/
inductive Verdict where
  | commit
  | abort
  deriving DecidableEq

/-- The text of a verdict. -/
def Verdict.text : Verdict → String
  | commit => "commit"
  | abort => "abort"

/-- What a participant is told to do. -/
inductive ParticipantState where
  | notPromised
  | applies (verdict : Verdict)
  | blocked
  deriving DecidableEq

/-- What `participant_state` says. -/
def ParticipantState.text (participant : String) : ParticipantState → String
  | notPromised => s!"'{participant}' has not promised to commit"
  | applies verdict => s!"'{participant}' applies the {verdict.text}"
  | blocked => s!"'{participant}' voted yes and is BLOCKED: it cannot abort "
      ++ "(promised) nor commit (verdict unknown), holding resources until "
      ++ "the coordinator is heard from, the 2PC weakness"

/-- A transaction. The constructor refuses one without participants. -/
structure TwoPhaseCommit where
  participants : Finset String
  votes : Dict String Ballot := ∅
  decision : Option Verdict := none
  participants_nonempty : participants.Nonempty

namespace TwoPhaseCommit

/-- `vote`. -/
def vote (transaction : TwoPhaseCommit) (participant vote : String) :
    Except RelayError String × TwoPhaseCommit :=
  if participant ∉ transaction.participants then
    (.error (.invalid s!"'{participant}' is not a participant"), transaction)
  else
    match Ballot.ofText vote with
    | none => (.error (.invalid "a vote is yes or no"), transaction)
    | some ballot =>
      match transaction.votes.get? participant with
      | some cast =>
        (.error (.invalid (s!"'{participant}' already voted '{cast.text}'; a "
          ++ "vote is a promise and cannot be changed")), transaction)
      | none =>
        (.ok s!"'{participant}' voted {vote}",
          { transaction with votes := transaction.votes.set participant ballot })

/-- `all_voted`. -/
def AllVoted (transaction : TwoPhaseCommit) : Prop :=
  transaction.votes.keys.toFinset = transaction.participants

instance (transaction : TwoPhaseCommit) : Decidable transaction.AllVoted :=
  inferInstanceAs (Decidable (_ = _))

/-- The verdict that the votes lead to. -/
def verdict (transaction : TwoPhaseCommit) : Verdict :=
  if transaction.votes.values.all (· = .yes) then .commit else .abort

/-- `decide`. -/
def decide (transaction : TwoPhaseCommit) : Except RelayError Verdict × TwoPhaseCommit :=
  if transaction.AllVoted then
    (.ok transaction.verdict, { transaction with decision := some transaction.verdict })
  else
    (.error (.invalid
      (s!"only {transaction.votes.entries.length}/{transaction.participants.card} voted; the "
        ++ "coordinator waits for all before deciding")), transaction)

/-- `participant_state`. -/
def participantState (transaction : TwoPhaseCommit) (participant : String) (heardDecision : Bool) :
    ParticipantState :=
  if transaction.votes.get? participant ≠ some .yes then .notPromised
  else
    match transaction.decision with
    | some verdict => if heardDecision then .applies verdict else .blocked
    | none => .blocked

/-- Everything a vote can do: be refused, or be the first of a participant. -/
theorem vote_cases (transaction : TwoPhaseCommit) (participant vote : String) :
    (∃ error, transaction.vote participant vote = (.error error, transaction)) ∨
      ∃ ballot, Ballot.ofText vote = some ballot ∧ participant ∈ transaction.participants ∧
        transaction.votes.get? participant = none ∧
        transaction.vote participant vote = (.ok s!"'{participant}' voted {vote}",
          { transaction with votes := transaction.votes.set participant ballot }) := by
  rw [TwoPhaseCommit.vote]
  split
  · exact Or.inl ⟨_, rfl⟩
  · next hparticipant =>
    cases hballot : Ballot.ofText vote with
    | none => exact Or.inl ⟨_, rfl⟩
    | some ballot =>
      cases hcast : transaction.votes.get? participant with
      | some cast => exact Or.inl ⟨_, rfl⟩
      | none => exact Or.inr ⟨ballot, rfl, not_not.mp hparticipant, rfl, rfl⟩

theorem verdict_eq_commit_iff {transaction : TwoPhaseCommit} :
    transaction.verdict = .commit ↔
      ∀ participant ballot, transaction.votes.get? participant = some ballot → ballot = .yes := by
  rw [verdict]
  have hall : transaction.votes.values.all (· = .yes) = true ↔
      ∀ participant ballot, transaction.votes.get? participant = some ballot → ballot = .yes := by
    simp only [List.all_eq_true, decide_eq_true_eq, Dict.mem_values_iff]
    exact ⟨fun h participant ballot hget => h ballot ⟨participant, hget⟩,
      fun h ballot ⟨participant, hget⟩ => h participant ballot hget⟩
  rw [← hall]
  split
  · next h => exact iff_of_true rfl h
  · next h => exact iff_of_false (fun heq => by cases heq) h

theorem participantState_eq_applies_iff {transaction : TwoPhaseCommit} {participant : String}
    {heardDecision : Bool} {verdict : Verdict} :
    transaction.participantState participant heardDecision = .applies verdict ↔
      transaction.votes.get? participant = some .yes ∧ heardDecision = true ∧
        transaction.decision = some verdict := by
  rw [participantState]
  by_cases hyes : transaction.votes.get? participant = some .yes
  · rw [if_neg (not_not.mpr hyes)]
    cases heardDecision <;> cases transaction.decision <;> simp [hyes]
  · simp [hyes]

theorem participantState_eq_blocked_iff {transaction : TwoPhaseCommit} {participant : String}
    {heardDecision : Bool} :
    transaction.participantState participant heardDecision = .blocked ↔
      transaction.votes.get? participant = some .yes ∧
        ¬ (heardDecision = true ∧ ∃ verdict, transaction.decision = some verdict) := by
  rw [participantState]
  by_cases hyes : transaction.votes.get? participant = some .yes
  · rw [if_neg (not_not.mpr hyes)]
    cases heardDecision <;> cases transaction.decision <;> simp [hyes]
  · simp [hyes]

end TwoPhaseCommit

/-! ## Runs -/

/-- What is asked of the transaction. -/
inductive TwoPhaseCall where
  | vote (participant vote : String)
  | decide
  | participantState (participant : String) (heardDecision : Bool)

/-- What is answered. -/
inductive TwoPhaseAnswer where
  | voted (answer : Except RelayError String)
  | decided (answer : Except RelayError Verdict)
  | told (state : ParticipantState)

/-- The transaction as a component. -/
def twoPhaseCommit : Machine TwoPhaseCommit TwoPhaseCall TwoPhaseAnswer where
  step transaction
    | .vote participant vote => (transaction.vote participant vote).map .voted id
    | .decide => transaction.decide.map .decided id
    | .participantState participant heardDecision =>
      (.told (transaction.participantState participant heardDecision), transaction)

/-- An event of a run. -/
abbrev TwoPhaseEvent := TwoPhaseCall × TwoPhaseAnswer

/-- A participant's vote was accepted. -/
def Cast (past : List TwoPhaseEvent) (participant : String) (ballot : Ballot) : Prop :=
  ∃ message, (TwoPhaseCall.vote participant ballot.text, TwoPhaseAnswer.voted (.ok message)) ∈ past

/-- The verdict that an event decides or has a participant apply, if it does. -/
def verdictOf : TwoPhaseEvent → Option Verdict
  | (_, .decided (.ok verdict)) => some verdict
  | (_, .told (.applies verdict)) => some verdict
  | _ => none

/-- The verdicts of a run, in the order they were decided or applied. -/
def verdicts (past : List TwoPhaseEvent) : List Verdict := past.filterMap verdictOf

/-- The transaction knows the votes that were accepted, and once there is a verdict all have voted
and it is the one that the votes lead to. -/
structure Ledger (participants : Finset String) (past : List TwoPhaseEvent)
    (transaction : TwoPhaseCommit) : Prop where
  participants_eq : transaction.participants = participants
  votes : ∀ participant ballot,
    transaction.votes.get? participant = some ballot ↔ Cast past participant ballot
  decided : ∀ verdict, transaction.decision = some verdict →
    transaction.AllVoted ∧ verdict = transaction.verdict
  agreed : ∀ verdict ∈ verdicts past, transaction.decision = some verdict
  decision_mem : ∀ verdict, transaction.decision = some verdict →
    (TwoPhaseCall.decide, TwoPhaseAnswer.decided (.ok verdict)) ∈ past

theorem cast_append_singleton {past : List TwoPhaseEvent} {e : TwoPhaseEvent} {participant : String}
    {ballot : Ballot} : Cast (past ++ [e]) participant ballot ↔
      Cast past participant ballot ∨ Cast [e] participant ballot := by
  simp only [Cast, List.mem_append, exists_or]

theorem verdicts_append_singleton (past : List TwoPhaseEvent) (e : TwoPhaseEvent) :
    verdicts (past ++ [e]) = verdicts past ++ (verdictOf e).toList := by
  rw [verdicts, List.filterMap_append, verdicts]
  cases h : verdictOf e with
  | none => rw [List.filterMap_cons_none h]; rfl
  | some verdict => rw [List.filterMap_cons_some h]; rfl

namespace Ledger

variable {participants : Finset String} {past : List TwoPhaseEvent} {transaction : TwoPhaseCommit}

theorem fresh (transaction : TwoPhaseCommit) (hvotes : transaction.votes = ∅)
    (hdecision : transaction.decision = none) :
    Ledger transaction.participants [] transaction where
  participants_eq := rfl
  votes participant ballot := by
    rw [hvotes]
    exact iff_of_false (fun h => by cases h) fun ⟨_, h⟩ => List.not_mem_nil h
  decided verdict h := by rw [hdecision] at h; cases h
  agreed verdict h := absurd h List.not_mem_nil
  decision_mem verdict h := by rw [hdecision] at h; cases h

/-- An event that casts no vote and brings no new verdict. -/
theorem frame (h : Ledger participants past transaction) {e : TwoPhaseEvent}
    (hcast : ∀ participant ballot, ¬ Cast [e] participant ballot)
    (hverdict : ∀ verdict, verdictOf e = some verdict → transaction.decision = some verdict) :
    Ledger participants (past ++ [e]) transaction where
  participants_eq := h.participants_eq
  votes participant ballot := by
    rw [cast_append_singleton, or_iff_left (hcast participant ballot)]
    exact h.votes participant ballot
  decided := h.decided
  agreed verdict hmem := by
    rw [verdicts_append_singleton, List.mem_append, Option.mem_toList] at hmem
    exact hmem.elim (h.agreed verdict) (hverdict verdict)
  decision_mem verdict hdecision := List.mem_append_left _ (h.decision_mem verdict hdecision)

/-- A vote that is accepted comes before any verdict: its participant had not voted. -/
theorem vote (h : Ledger participants past transaction) (participant vote : String) :
    Ledger participants
      (past ++ [(.vote participant vote, .voted (transaction.vote participant vote).1)])
      (transaction.vote participant vote).2 := by
  rcases transaction.vote_cases participant vote with
    ⟨error, heq⟩ | ⟨ballot, hballot, hparticipant, hnone, heq⟩
  · rw [heq]
    exact h.frame (by simp [Cast]) (by simp [verdictOf])
  · rw [heq]
    have hundecided : transaction.decision = none := by
      rw [Option.eq_none_iff_forall_ne_some]
      intro verdict hdecision
      obtain ⟨hall, -⟩ := h.decided verdict hdecision
      rw [← hall, List.mem_toFinset, Dict.mem_keys_iff] at hparticipant
      obtain ⟨cast, hcast⟩ := hparticipant
      rw [hnone] at hcast
      cases hcast
    refine ⟨h.participants_eq, fun p b => ?_, fun verdict hdecision => ?_, fun verdict hmem => ?_,
      fun verdict hdecision => ?_⟩
    · rw [cast_append_singleton, ← h.votes, Dict.get?_set]
      have hnew :
          Cast [(.vote participant vote, .voted (.ok s!"'{participant}' voted {vote}"))] p b ↔
            p = participant ∧ b = ballot := by
        rw [Ballot.ofText_eq_some_iff] at hballot
        simp only [Cast, List.mem_singleton, Prod.mk.injEq, TwoPhaseCall.vote.injEq,
          TwoPhaseAnswer.voted.injEq, Except.ok.injEq, exists_and_left, exists_eq, and_true,
          hballot, Ballot.text_injective.eq_iff]
      rw [hnew]
      split
      · next hp =>
        subst hp
        rw [hnone]
        simp [eq_comm]
      · next hp => simp [hp]
    · rw [hundecided] at hdecision
      cases hdecision
    · rw [verdicts_append_singleton, List.mem_append] at hmem
      rcases hmem with hmem | hmem
      · exact h.agreed verdict hmem
      · cases hmem
    · rw [hundecided] at hdecision
      cases hdecision

/-- A decision repeats the verdict there is, if there is one. -/
theorem decide (h : Ledger participants past transaction) :
    Ledger participants (past ++ [(.decide, .decided transaction.decide.1)])
      transaction.decide.2 := by
  rw [TwoPhaseCommit.decide]
  split
  · next hall =>
    refine ⟨h.participants_eq, fun p b => ?_, fun verdict hdecision => ?_, fun verdict hmem => ?_,
      fun verdict hdecision => ?_⟩
    · rw [cast_append_singleton, or_iff_left (by simp [Cast])]
      exact h.votes p b
    · exact ⟨hall, (Option.some.inj hdecision).symm⟩
    · rw [verdicts_append_singleton, List.mem_append] at hmem
      rcases hmem with hmem | hmem
      · exact congrArg some (h.decided verdict (h.agreed verdict hmem)).2.symm
      · exact congrArg some (List.mem_singleton.mp hmem).symm
    · obtain rfl := Option.some.inj hdecision
      exact List.mem_append_right _ (List.mem_singleton.mpr rfl)
  · exact h.frame (by simp [Cast]) (by simp [verdictOf])

theorem participantState (h : Ledger participants past transaction) (participant : String)
    (heardDecision : Bool) :
    Ledger participants (past ++ [(.participantState participant heardDecision,
      .told (transaction.participantState participant heardDecision))]) transaction := by
  refine h.frame (by simp [Cast]) fun verdict hverdict => ?_
  have happlies : transaction.participantState participant heardDecision = .applies verdict := by
    revert hverdict
    cases transaction.participantState participant heardDecision <;> simp [verdictOf]
  exact (TwoPhaseCommit.participantState_eq_applies_iff.mp happlies).2.2

end Ledger

theorem ledger_step {participants : Finset String} (past : List TwoPhaseEvent)
    (transaction : TwoPhaseCommit) (call : TwoPhaseCall)
    (h : Ledger participants past transaction) :
    Ledger participants (past ++ [(call, (twoPhaseCommit.step transaction call).1)])
      (twoPhaseCommit.step transaction call).2 := by
  cases call with
  | vote participant vote => exact h.vote participant vote
  | decide => exact h.decide
  | participantState participant heard => exact h.participantState participant heard

/-- A transaction in which nobody has voted. -/
def newTransaction (participants : Finset String) (h : participants.Nonempty) : TwoPhaseCommit where
  participants := participants
  participants_nonempty := h

theorem ledger_trace {participants : Finset String} (hne : participants.Nonempty)
    (calls : List TwoPhaseCall) :
    Ledger participants (twoPhaseCommit.trace (newTransaction participants hne) calls)
      (twoPhaseCommit.final (newTransaction participants hne) calls) := by
  refine Machine.trace_always (P := Ledger participants) ?_ ledger_step calls
  exact Ledger.fresh (newTransaction participants hne) rfl rfl

/-- **One verdict.** In every run all verdicts, decided or applied by anyone at any time, are the
same; it is commit if all participants voted yes, and abort if all voted and some voted no. -/
theorem one_verdict {participants : Finset String} (hne : participants.Nonempty)
    (calls : List TwoPhaseCall) :
    (verdicts (twoPhaseCommit.trace (newTransaction participants hne) calls)).Pairwise (· = ·) ∧
      (∀ verdict ∈ verdicts (twoPhaseCommit.trace (newTransaction participants hne) calls),
        (∀ p ∈ participants, ∃ ballot,
          Cast (twoPhaseCommit.trace (newTransaction participants hne) calls) p ballot) ∧
        (verdict = .commit ↔ ∀ p ∈ participants,
          Cast (twoPhaseCommit.trace (newTransaction participants hne) calls) p .yes)) := by
  have h := ledger_trace hne calls
  refine ⟨List.pairwise_of_forall_mem_list fun v hv w hw => ?_, fun verdict hmem => ?_⟩
  · exact Option.some.inj ((h.agreed v hv).symm.trans (h.agreed w hw))
  · obtain ⟨hall, hverdict⟩ := h.decided verdict (h.agreed verdict hmem)
    have hvoted : ∀ p ∈ participants, ∃ ballot,
        (twoPhaseCommit.final (newTransaction participants hne) calls).votes.get? p =
          some ballot := fun p hp => by
      rw [← h.participants_eq, ← hall, List.mem_toFinset] at hp
      exact (Dict.mem_keys_iff _).mp hp
    refine ⟨fun p hp => (hvoted p hp).imp fun ballot hget => (h.votes p ballot).mp hget, ?_⟩
    rw [hverdict, TwoPhaseCommit.verdict_eq_commit_iff]
    constructor
    · intro hyes p hp
      obtain ⟨ballot, hget⟩ := hvoted p hp
      exact (h.votes p .yes).mp (hyes p ballot hget ▸ hget)
    · intro hyes p ballot hget
      have hp : p ∈ participants := by
        rw [← h.participants_eq, ← hall, List.mem_toFinset, Dict.mem_keys_iff]
        exact ⟨ballot, hget⟩
      have hcast := (h.votes p .yes).mpr (hyes p hp)
      rw [hget] at hcast
      exact Option.some.inj hcast

/-- What a participant is told, given the events before. It applies a verdict exactly if it voted
yes, has heard, and the verdict was decided. It is blocked exactly if it voted yes, and it has not
heard or nothing was decided. -/
def ToldRightly (past : List TwoPhaseEvent) (e : TwoPhaseEvent) : Prop :=
  ∀ participant heard state, e = (.participantState participant heard, .told state) →
    (∀ verdict, state = .applies verdict ↔ Cast past participant .yes ∧ heard = true ∧
      (TwoPhaseCall.decide, TwoPhaseAnswer.decided (.ok verdict)) ∈ past) ∧
    (state = .blocked ↔ Cast past participant .yes ∧ ¬ (heard = true ∧
      ∃ verdict, (TwoPhaseCall.decide, TwoPhaseAnswer.decided (.ok verdict)) ∈ past))

theorem Ledger.decision_iff {participants : Finset String} {past : List TwoPhaseEvent}
    {transaction : TwoPhaseCommit} (h : Ledger participants past transaction) (verdict : Verdict) :
    transaction.decision = some verdict ↔
      (TwoPhaseCall.decide, TwoPhaseAnswer.decided (.ok verdict)) ∈ past :=
  ⟨h.decision_mem verdict, fun hmem =>
    h.agreed verdict (List.mem_filterMap.mpr ⟨_, hmem, rfl⟩)⟩

theorem toldRightly_step {participants : Finset String} {past : List TwoPhaseEvent}
    {transaction : TwoPhaseCommit} (h : Ledger participants past transaction)
    (call : TwoPhaseCall) : ToldRightly past (call, (twoPhaseCommit.step transaction call).1) := by
  rintro participant heard state heq
  obtain ⟨rfl, hstate⟩ := Prod.mk.inj heq
  obtain rfl : transaction.participantState participant heard = state :=
    TwoPhaseAnswer.told.inj hstate
  refine ⟨fun verdict => ?_, ?_⟩
  · rw [TwoPhaseCommit.participantState_eq_applies_iff, h.votes, h.decision_iff]
  · rw [TwoPhaseCommit.participantState_eq_blocked_iff, h.votes]
    simp only [h.decision_iff]

/-- **Who applies the verdict, and who is blocked**, in every run. A participant that did not vote
yes is told neither, whatever it has heard. -/
theorem participant_answers {participants : Finset String} (hne : participants.Nonempty)
    (calls : List TwoPhaseCall) :
    Justified ToldRightly (twoPhaseCommit.trace (newTransaction participants hne) calls) := by
  refine (Machine.trace_always
    (P := fun past transaction => Ledger participants past transaction ∧ Justified ToldRightly past)
    ⟨ledger_trace hne [], justified_nil _⟩
    (fun past transaction call h => ⟨ledger_step past transaction call h.1,
      justified_append_singleton.mpr ⟨h.2, toldRightly_step h.1 call⟩⟩) calls).2

/-- Two votes of yes, a decision made twice, and an answer to each of the participants. -/
theorem one_verdict_two :
    (verdicts (twoPhaseCommit.trace (newTransaction {"p1", "p2"} ⟨"p1", by decide⟩)
      [.vote "p1" "yes", .participantState "p1" true, .vote "p2" "yes", .decide,
        .participantState "p1" false, .participantState "p2" true, .decide])).Pairwise (· = ·) ∧
      verdicts (twoPhaseCommit.trace (newTransaction {"p1", "p2"} ⟨"p1", by decide⟩)
        [.vote "p1" "yes", .participantState "p1" true, .vote "p2" "yes", .decide,
          .participantState "p1" false, .participantState "p2" true, .decide]) =
        [.commit, .commit, .commit] :=
  ⟨(one_verdict _ _).1, by decide⟩

/-- A participant that voted yes is blocked before the decision and as long as it has not heard. -/
theorem participant_answers_blocked :
    Justified ToldRightly (twoPhaseCommit.trace (newTransaction {"p1", "p2"} ⟨"p1", by decide⟩)
      [.vote "p1" "yes", .participantState "p1" true, .vote "p2" "no", .decide,
        .participantState "p1" false, .participantState "p1" true]) ∧
      (twoPhaseCommit.final (newTransaction {"p1", "p2"} ⟨"p1", by decide⟩)
        [.vote "p1" "yes", .vote "p2" "no", .decide]).participantState "p1" true =
        .applies .abort :=
  ⟨participant_answers _ _, by decide⟩

end Relay
