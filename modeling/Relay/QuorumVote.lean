import Mathlib.Data.Int.Order.Basic
import Mathlib.Data.Finset.Insert
import Mathlib.Data.Fintype.Basic
import Relay.Errors
import Relay.Lib.Dict
import Relay.Lib.Machine
import Relay.Lib.Quorum

/-!
# Quorum votes

A candidate wins an election with the votes of a majority, and a voter grants its vote only to a
candidate whose log is at least as current as its own. So the log of a winner is at least as
current as anything that a majority holds (`winner_atLeastAsCurrentAs`): the two majorities share
a voter, and that voter has compared the logs.

A voter must not vote twice in a term. Elections keep it from doing so by a ledger which they
share, with the term each voter voted in last. The ledger forgets every vote but the last, and
`request_vote` compares terms for equality only: a voter asked to vote in a term below the one in
its ledger votes, and its later vote is forgotten. As long as no voter is asked to go back, each
voter votes once in a term and a term has at most one winner (`one_vote_per_term`).

## Scope

The text of the tally is left out, which states whether there is a majority.

## Main definitions

* `LogEnd`, `Election`, with `requestVote` and `won`
* `electionsMachine`: any number of elections that share a ledger
* `VotesInOrder`: the voter has not voted in a later term

## Main results

* `one_vote_per_term`
* `winner_atLeastAsCurrentAs`
-/

namespace Relay

/-- Where a log ends. -/
structure LogEnd where
  lastTerm : ℤ
  length : ℤ
  deriving DecidableEq

/-- `at_least_as_current_as`. -/
def LogEnd.atLeastAsCurrentAs (log other : LogEnd) : Bool :=
  if log.lastTerm ≠ other.lastTerm then log.lastTerm > other.lastTerm
  else log.length ≥ other.length

/-- The last term decides, then the length. -/
theorem LogEnd.atLeastAsCurrentAs_iff {log other : LogEnd} :
    log.atLeastAsCurrentAs other = true ↔ other.lastTerm < log.lastTerm ∨
      other.lastTerm = log.lastTerm ∧ other.length ≤ log.length := by
  rw [atLeastAsCurrentAs]
  split
  · rw [decide_eq_true_eq]
    omega
  · rw [decide_eq_true_eq]
    omega

theorem LogEnd.atLeastAsCurrentAs_trans {a b c : LogEnd} (hab : a.atLeastAsCurrentAs b = true)
    (hbc : b.atLeastAsCurrentAs c = true) : a.atLeastAsCurrentAs c = true := by
  rw [atLeastAsCurrentAs_iff] at hab hbc ⊢
  omega

/-- An election of one term. The ledger `voted_terms` is shared with other elections. -/
structure Election where
  term : ℤ
  voters : ℤ
  granted : Finset String := ∅
  votedTerms : Dict String ℤ := ∅
  /-- An election needs at least one voter. -/
  one_le_voters : 1 ≤ voters

namespace Election

/-- `Election(term, voters, voted_terms=votedTerms)`. -/
def new (term voters : ℤ) (votedTerms : Dict String ℤ) : Except RelayError Election :=
  if h : voters < 1 then .error (.invalid "an election needs at least one voter")
  else .ok { term, voters, votedTerms, one_le_voters := not_lt.mp h }

/-- `majority`. -/
def majority (election : Election) : ℤ := election.voters / 2 + 1

/-- `request_vote`. -/
def requestVote (election : Election) (voter : String) (candidateLog voterLog : LogEnd) :
    Except RelayError Bool × Election :=
  if election.votedTerms.get? voter = some election.term then
    (.error (.fenced (s!"{voter} already voted in term {election.term}; a "
      ++ "second vote could split the term between two "
      ++ "candidates")), election)
  else
    let voted := { election with votedTerms := election.votedTerms.set voter election.term }
    if ¬ candidateLog.atLeastAsCurrentAs voterLog then (.ok false, voted)
    else (.ok true, { voted with granted := insert voter voted.granted })

/-- `won`. -/
def won (election : Election) : Bool := election.granted.card ≥ election.majority

/-- The votes that win an election among the voters `V` are a quorum of them. -/
theorem isQuorum_of_won {election : Election} {V : Finset String}
    (hvoters : election.voters = V.card) (hgranted : election.granted ⊆ V)
    (hwon : election.won = true) : IsQuorum V election.granted := by
  rw [won, decide_eq_true_eq, majority, hvoters] at hwon
  exact ⟨hgranted, by omega⟩

section RequestVote

variable (election : Election) (voter : String) (candidateLog voterLog : LogEnd)

@[simp] theorem term_requestVote :
    (election.requestVote voter candidateLog voterLog).2.term = election.term := by
  simp only [requestVote]
  split_ifs <;> rfl

@[simp] theorem voters_requestVote :
    (election.requestVote voter candidateLog voterLog).2.voters = election.voters := by
  simp only [requestVote]
  split_ifs <;> rfl

/-- Whatever the answer, the ledger then holds the term of the election for the voter. -/
theorem get?_votedTerms_requestVote (v : String) :
    (election.requestVote voter candidateLog voterLog).2.votedTerms.get? v =
      if v = voter then some election.term else election.votedTerms.get? v := by
  simp only [requestVote]
  split_ifs with hfenced hcurrent hv hv
  all_goals grind [Dict.get?_set]

/-- A vote is granted by a voter whose ledger does not hold the term and whose log the candidate's
covers. -/
theorem mem_granted_requestVote {v : String} :
    v ∈ (election.requestVote voter candidateLog voterLog).2.granted ↔ v ∈ election.granted ∨
      v = voter ∧ election.votedTerms.get? voter ≠ some election.term ∧
        candidateLog.atLeastAsCurrentAs voterLog = true := by
  simp only [requestVote]
  split_ifs with hfenced hcurrent
  · simp [hfenced]
  · simp [hfenced, hcurrent, or_comm]
  · simp [hcurrent]

end RequestVote

end Election

/-! ## Elections with one ledger -/

/-- A vote asked for in one of the elections. -/
structure VoteRequest (ε : Type*) where
  election : ε
  voter : String
  candidateLog : LogEnd
  voterLog : LogEnd

section Elections

variable {ε : Type*} [DecidableEq ε]

/-- The elections as one component. The ledger is one object, so what the election that is asked
writes into it stands in all of them. -/
def electionsMachine : Machine (ε → Election) (VoteRequest ε) (Except RelayError Bool) where
  step elections request :=
    let result := (elections request.election).requestVote request.voter request.candidateLog
      request.voterLog
    (result.1, fun k => if k = request.election then result.2
      else { elections k with votedTerms := result.2.votedTerms })

/-- The voter's last vote was in no later term. -/
def VotesInOrder (elections : ε → Election) (request : VoteRequest ε) : Prop :=
  ∀ lastTerm ∈ (elections request.election).votedTerms.get? request.voter,
    lastTerm ≤ (elections request.election).term

instance (elections : ε → Election) (request : VoteRequest ε) :
    Decidable (VotesInOrder elections request) :=
  inferInstanceAs (Decidable (∀ lastTerm ∈ Dict.get? _ _, _))

section Step

variable (elections : ε → Election) (request : VoteRequest ε) (k : ε)

@[simp] theorem term_step : ((electionsMachine.step elections request).2 k).term =
    (elections k).term := by
  simp only [electionsMachine]
  split_ifs with hk
  · rw [Election.term_requestVote, hk]
  · rfl

@[simp] theorem voters_step : ((electionsMachine.step elections request).2 k).voters =
    (elections k).voters := by
  simp only [electionsMachine]
  split_ifs with hk
  · rw [Election.voters_requestVote, hk]
  · rfl

theorem get?_votedTerms_step (v : String) :
    ((electionsMachine.step elections request).2 k).votedTerms.get? v =
      if v = request.voter then some (elections request.election).term
      else (elections request.election).votedTerms.get? v := by
  simp only [electionsMachine]
  split_ifs with hk hv hv
  all_goals simp [Election.get?_votedTerms_requestVote, hv]

theorem mem_granted_step {v : String} :
    v ∈ ((electionsMachine.step elections request).2 k).granted ↔ v ∈ (elections k).granted ∨
      k = request.election ∧ v = request.voter ∧
        (elections k).votedTerms.get? v ≠ some (elections k).term ∧
        request.candidateLog.atLeastAsCurrentAs request.voterLog = true := by
  simp only [electionsMachine]
  split_ifs with hk
  · subst hk
    rw [Election.mem_granted_requestVote]
    refine or_congr_right ⟨?_, ?_⟩
    · rintro ⟨rfl, hvote⟩
      exact ⟨rfl, rfl, hvote⟩
    · rintro ⟨-, rfl, hvote⟩
      exact ⟨rfl, hvote⟩
  · simp [hk]

end Step

/-- No request moves an election to another term, or changes its number of voters. -/
theorem term_voters_final (elections : ε → Election) (requests : List (VoteRequest ε)) (k : ε) :
    (electionsMachine.final elections requests k).term = (elections k).term ∧
      (electionsMachine.final elections requests k).voters = (elections k).voters := by
  induction requests generalizing elections with
  | nil => exact ⟨rfl, rfl⟩
  | cons request requests ih =>
    obtain ⟨hterm, hvoters⟩ := ih (electionsMachine.step elections request).2
    exact ⟨hterm.trans (term_step _ _ _), hvoters.trans (voters_step _ _ _)⟩

/-- Every vote that a run adds was asked for, in its election, by a candidate whose log the voter
found current. -/
theorem exists_request_of_mem_granted {elections : ε → Election}
    {requests : List (VoteRequest ε)} {k : ε} {v : String} (hfresh : (elections k).granted = ∅)
    (hv : v ∈ (electionsMachine.final elections requests k).granted) :
    ∃ request ∈ requests, request.election = k ∧ request.voter = v ∧
      request.candidateLog.atLeastAsCurrentAs request.voterLog = true := by
  induction requests using List.reverseRecOn with
  | nil =>
    rw [Machine.final_nil, hfresh] at hv
    exact absurd hv (Finset.notMem_empty v)
  | append_singleton requests request ih =>
    rw [Machine.final_append_singleton, mem_granted_step] at hv
    rcases hv with hv | ⟨rfl, rfl, -, hcurrent⟩
    · obtain ⟨earlier, hmem, hearlier⟩ := ih hv
      exact ⟨earlier, List.mem_append_left _ hmem, hearlier⟩
    · exact ⟨request, by simp, rfl, rfl, hcurrent⟩

/-- What a shared ledger has to say as long as it is kept in order: a vote that was granted is in
the ledger, unless a vote in a later term has replaced it. -/
structure Ballots (elections : ε → Election) : Prop where
  shared : ∀ j k v, (elections j).votedTerms.get? v = (elections k).votedTerms.get? v
  recorded : ∀ k, ∀ v ∈ (elections k).granted,
    ∃ lastTerm, (elections k).votedTerms.get? v = some lastTerm ∧ (elections k).term ≤ lastTerm
  once : ∀ j k v, v ∈ (elections j).granted → v ∈ (elections k).granted →
    (elections j).term = (elections k).term → j = k

omit [DecidableEq ε] in
theorem Ballots.of_fresh {elections : ε → Election} (hfresh : ∀ k, (elections k).granted = ∅)
    (hshared : ∀ j k, (elections j).votedTerms = (elections k).votedTerms) :
    Ballots elections where
  shared j k v := by rw [hshared j k]
  recorded k v hv := by
    rw [hfresh k] at hv
    exact absurd hv (Finset.notMem_empty v)
  once j k v hv := by
    rw [hfresh j] at hv
    exact absurd hv (Finset.notMem_empty v)

omit [DecidableEq ε] in
/-- A voter that votes in order has not voted in this term: its ledger holds a lower term or none,
and so do all the votes it has granted. -/
theorem Ballots.not_mem_granted {elections : ε → Election} (h : Ballots elections)
    {request : VoteRequest ε} (horder : VotesInOrder elections request)
    (hvote : (elections request.election).votedTerms.get? request.voter ≠
      some (elections request.election).term)
    {k : ε} (hk : (elections request.election).term ≤ (elections k).term) :
    request.voter ∉ (elections k).granted := by
  intro hv
  obtain ⟨lastTerm, hlast, hle⟩ := h.recorded k request.voter hv
  rw [h.shared k request.election] at hlast
  have hlt : lastTerm < (elections request.election).term :=
    lt_of_le_of_ne (horder lastTerm hlast) fun heq => hvote (heq ▸ hlast)
  omega

theorem Ballots.step {elections : ε → Election} (h : Ballots elections)
    (request : VoteRequest ε) (horder : VotesInOrder elections request) :
    Ballots (electionsMachine.step elections request).2 where
  shared j k v := by rw [get?_votedTerms_step, get?_votedTerms_step]
  recorded k v hv := by
    rw [get?_votedTerms_step, term_step]
    by_cases hvoter : v = request.voter
    · rw [if_pos hvoter]
      refine ⟨_, rfl, ?_⟩
      rcases (mem_granted_step _ _ _).mp hv with hv | ⟨hk, -, -⟩
      · -- the old entry is no lower than the old vote, and no higher than the new entry
        obtain ⟨lastTerm, hlast, hle⟩ := h.recorded k v hv
        rw [h.shared k request.election, hvoter] at hlast
        exact hle.trans (horder lastTerm hlast)
      · rw [hk]
    · rw [if_neg hvoter]
      have hold := ((mem_granted_step _ _ _).mp hv).resolve_right fun hnew => hvoter hnew.2.1
      obtain ⟨lastTerm, hlast, hle⟩ := h.recorded k v hold
      exact ⟨lastTerm, h.shared k request.election v ▸ hlast, hle⟩
  once j k v hj hk hterm := by
    rw [term_step, term_step] at hterm
    rcases (mem_granted_step _ _ _).mp hj with hj | ⟨rfl, rfl, hvote, -⟩
    · rcases (mem_granted_step _ _ _).mp hk with hk | ⟨rfl, rfl, hvote, -⟩
      · exact h.once j k v hj hk hterm
      · exact absurd hj (h.not_mem_granted horder hvote hterm.ge)
    · rcases (mem_granted_step _ _ _).mp hk with hk | ⟨rfl, -, -⟩
      · exact absurd hk (h.not_mem_granted horder hvote hterm.le)
      · rfl

/-- **One vote per term.** Let elections of any terms share a ledger, and let no voter be asked for
a vote in a term below the one in its ledger. Then each voter has granted its vote in at most one
election of each term; and if all voters come from a set of the size that the elections assume, at
most one election of each term is won. -/
theorem one_vote_per_term (elections : ε → Election) (hfresh : ∀ k, (elections k).granted = ∅)
    (hshared : ∀ j k, (elections j).votedTerms = (elections k).votedTerms)
    (requests : List (VoteRequest ε))
    (horder : electionsMachine.Guarded VotesInOrder elections requests) :
    (∀ j k v, v ∈ (electionsMachine.final elections requests j).granted →
        v ∈ (electionsMachine.final elections requests k).granted →
        (elections j).term = (elections k).term → j = k) ∧
      ∀ V : Finset String, (∀ request ∈ requests, request.voter ∈ V) →
        (∀ k, (elections k).voters = V.card) →
        ∀ j k, (electionsMachine.final elections requests j).won = true →
          (electionsMachine.final elections requests k).won = true →
          (elections j).term = (elections k).term → j = k := by
  have hballots : Ballots (electionsMachine.final elections requests) :=
    Machine.invariant (P := Ballots) (Ballots.of_fresh hfresh hshared)
      (fun _ request h horder => h.step request horder) horder
  have hterm := fun k => (term_voters_final elections requests k).1
  have honce : ∀ j k v, v ∈ (electionsMachine.final elections requests j).granted →
      v ∈ (electionsMachine.final elections requests k).granted →
      (elections j).term = (elections k).term → j = k := by
    intro j k v hj hk hjk
    exact hballots.once j k v hj hk (by rw [hterm, hterm, hjk])
  refine ⟨honce, fun V hV hvoters j k hj hk hjk => ?_⟩
  have hquorum : ∀ i, (electionsMachine.final elections requests i).won = true →
      IsQuorum V (electionsMachine.final elections requests i).granted := by
    intro i hwon
    refine Election.isQuorum_of_won ((term_voters_final elections requests i).2.trans (hvoters i))
      (fun v hv => ?_) hwon
    obtain ⟨request, hmem, -, rfl, -⟩ := exists_request_of_mem_granted (hfresh i) hv
    exact hV request hmem
  obtain ⟨v, hvj, hvk⟩ := (hquorum j hj).exists_mem (hquorum k hk)
  exact honce j k v hvj hvk hjk

end Elections

/-- Two candidates stand in term `1` and one in term `2`, with a single voter and one ledger. -/
def splitElections (k : Fin 3) : Election where
  term := if k = 1 then 2 else 1
  voters := 1
  one_le_voters := le_rfl

/-- The single voter is asked for its vote in one of the elections. -/
def askVoter (k : Fin 3) : VoteRequest (Fin 3) := ⟨k, "v", ⟨0, 0⟩, ⟨0, 0⟩⟩

/-- Asked in term `1`, then in term `2` and then in term `1` again, the voter votes every time, and
both candidates of term `1` win. -/
theorem two_votes_splitElections :
    (¬ ∀ j k v,
        v ∈ (electionsMachine.final splitElections [askVoter 0, askVoter 1, askVoter 2] j).granted →
        v ∈ (electionsMachine.final splitElections [askVoter 0, askVoter 1, askVoter 2] k).granted →
        (splitElections j).term = (splitElections k).term → j = k) ∧
      ¬ ∀ j k,
        (electionsMachine.final splitElections [askVoter 0, askVoter 1, askVoter 2] j).won = true →
        (electionsMachine.final splitElections [askVoter 0, askVoter 1, askVoter 2] k).won = true →
        (splitElections j).term = (splitElections k).term → j = k := by
  refine ⟨fun honce => ?_, fun hwinner => ?_⟩
  · exact absurd (honce 0 2 "v" (by decide) (by decide) (by decide)) (by decide)
  · exact absurd (hwinner 0 2 (by decide) (by decide) (by decide)) (by decide)

/-- Asked in both elections of term `1` before the one of term `2`, the voter votes once in each
term. -/
theorem one_vote_per_term_splitElections :
    electionsMachine.Guarded VotesInOrder splitElections [askVoter 0, askVoter 2, askVoter 1] ∧
      ∀ j k v,
        v ∈ (electionsMachine.final splitElections [askVoter 0, askVoter 2, askVoter 1] j).granted →
        v ∈ (electionsMachine.final splitElections [askVoter 0, askVoter 2, askVoter 1] k).granted →
        (splitElections j).term = (splitElections k).term → j = k := by
  have horder : electionsMachine.Guarded VotesInOrder splitElections
      [askVoter 0, askVoter 2, askVoter 1] := by decide
  exact ⟨horder, (one_vote_per_term splitElections (fun _ => rfl) (fun _ _ => rfl) _ horder).1⟩

section Winner

variable {ε : Type*} [DecidableEq ε]

/-- **The winner is current.** If a majority of the voters `V` have logs at least as current as a
position, and a candidate wins an election among `V` by votes asked of members of `V` with their
own logs, then the candidate's log is at least as current as that position. Elections that share
the ledger may go on at the same time. -/
theorem winner_atLeastAsCurrentAs (elections : ε → Election) (k : ε)
    (hfresh : (elections k).granted = ∅) (V : Finset String)
    (hvoters : (elections k).voters = V.card) (logs : String → LogEnd)
    (candidateLog committed : LogEnd)
    (hcommitted : V.card / 2 + 1 ≤
      (V.filter fun v => (logs v).atLeastAsCurrentAs committed = true).card)
    (requests : List (VoteRequest ε))
    (hrequests : ∀ request ∈ requests, request.election = k → request.voter ∈ V ∧
      request.candidateLog = candidateLog ∧ request.voterLog = logs request.voter)
    (hwon : (electionsMachine.final elections requests k).won = true) :
    candidateLog.atLeastAsCurrentAs committed = true := by
  -- every vote came from a member that found the candidate's log current
  have hvotes : ∀ v ∈ (electionsMachine.final elections requests k).granted,
      v ∈ V ∧ candidateLog.atLeastAsCurrentAs (logs v) = true := by
    intro v hv
    obtain ⟨request, hmem, hk, rfl, hcurrent⟩ := exists_request_of_mem_granted hfresh hv
    obtain ⟨hV, hcandidate, hlog⟩ := hrequests request hmem hk
    rw [hcandidate, hlog] at hcurrent
    exact ⟨hV, hcurrent⟩
  have hwinning := Election.isQuorum_of_won
    ((term_voters_final elections requests k).2.trans hvoters) (fun v hv => (hvotes v hv).1) hwon
  have hholding : IsQuorum V (V.filter fun v => (logs v).atLeastAsCurrentAs committed = true) :=
    ⟨Finset.filter_subset _ _, hcommitted⟩
  obtain ⟨v, hv, hheld⟩ := hwinning.exists_mem hholding
  exact LogEnd.atLeastAsCurrentAs_trans (hvotes v hv).2 (Finset.mem_filter.mp hheld).2

end Winner

/-- Of three voters, the third has fallen behind. -/
def threeLogs (voter : String) : LogEnd := if voter = "c" then ⟨1, 3⟩ else ⟨1, 5⟩

/-- An election among them. -/
def threeVoterElection (_ : Unit) : Election where
  term := 2
  voters := 3
  one_le_voters := by decide

/-- A candidate asks the voter that is behind and one of the others. -/
def askTwo : List (VoteRequest Unit) :=
  [⟨(), "c", ⟨1, 5⟩, ⟨1, 3⟩⟩, ⟨(), "a", ⟨1, 5⟩, ⟨1, 5⟩⟩]

/-- The candidate wins, so its log reaches what the other two hold. -/
theorem winner_atLeastAsCurrentAs_askTwo :
    (electionsMachine.final threeVoterElection askTwo ()).won = true ∧
      (⟨1, 5⟩ : LogEnd).atLeastAsCurrentAs ⟨1, 5⟩ = true := by
  have hwon : (electionsMachine.final threeVoterElection askTwo ()).won = true := by decide
  exact ⟨hwon, winner_atLeastAsCurrentAs threeVoterElection () rfl {"a", "b", "c"} rfl threeLogs
    ⟨1, 5⟩ ⟨1, 5⟩ (by decide) askTwo (by decide) hwon⟩

end Relay
