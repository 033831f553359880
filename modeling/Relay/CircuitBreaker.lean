import Mathlib.Algebra.Order.Ring.Int
import Relay.Errors
import Relay.Lib.Machine

/-!
# Circuit breaker

A breaker that has seen too many failures opens, and calls fail at once until a cooldown is over.
Then it is half open for a trial, and the next outcome that is reported closes it or opens it again.

Outcomes may be reported late, for calls that were allowed long ago. A failure does no harm then.
But a success closes a breaker that has opened since, before its cooldown is over, and while the
breaker is half open nothing keeps a second call from being allowed beside the trial. Where neither
happens, the breaker protects what it stands before.

## Main definitions

* `CircuitBreaker`, with `allow`, `onSuccess` and `onFailure`
* `Protects`: what a run of a breaker promises
* `Careful`: no success for an open breaker before its cooldown is over, no call beside a trial

## Main results

* `breakerStep`: what a call can do
* `protects_of_guarded`: a run of careful calls keeps the promise
* `unprotected_runs`: runs that do not
-/

namespace Relay

/-- The states of a breaker. -/
inductive BreakerState where
  | closed
  | opened
  | halfOpen
  deriving DecidableEq

/-- The text of a state. -/
def BreakerState.text : BreakerState → String
  | .closed => "closed"
  | .opened => "open"
  | .halfOpen => "half-open"

/-- A circuit breaker. -/
structure CircuitBreaker where
  threshold : ℤ
  cooldown : ℤ
  state : BreakerState := .closed
  failures : ℤ := 0
  openedAt : ℤ := -1
  positive : 1 ≤ threshold ∧ 1 ≤ cooldown

namespace CircuitBreaker

/-- `_maybe_half_open`. -/
def maybeHalfOpen (breaker : CircuitBreaker) (now : ℤ) : CircuitBreaker :=
  if breaker.state = .opened ∧ breaker.cooldown ≤ now - breaker.openedAt then
    { breaker with state := .halfOpen }
  else breaker

/-- `allow`. -/
def allow (breaker : CircuitBreaker) (now : ℤ) : Except RelayError String × CircuitBreaker :=
  let breaker := breaker.maybeHalfOpen now
  if breaker.state = .opened then
    let wait := breaker.cooldown - (now - breaker.openedAt)
    (.error (.invalid (s!"circuit open; failing fast, {wait} until the half-open "
      ++ "trial, sparing the downstream the load it needs to recover")), breaker)
  else (.ok s!"call allowed in {breaker.state.text}", breaker)

/-- `on_success`. -/
def onSuccess (breaker : CircuitBreaker) (now : ℤ) : String × CircuitBreaker :=
  ("success; circuit closed",
    { breaker.maybeHalfOpen now with state := .closed, failures := 0 })

/-- `on_failure`. -/
def onFailure (breaker : CircuitBreaker) (now : ℤ) : String × CircuitBreaker :=
  if breaker.state = .halfOpen then
    ("trial failed; circuit re-opened for another cooldown",
      { breaker with state := .opened, openedAt := now })
  else if breaker.threshold ≤ breaker.failures + 1 then
    (s!"threshold {breaker.threshold} hit; circuit opened, failing fast",
      { breaker with failures := breaker.failures + 1, state := .opened, openedAt := now })
  else
    (s!"failure {breaker.failures + 1}/{breaker.threshold}; still closed",
      { breaker with failures := breaker.failures + 1 })

end CircuitBreaker

/-! ## Runs -/

/-- A call to a breaker: a request to be let through, or the outcome of an earlier one. -/
inductive BreakerCall where
  | allow (now : ℤ)
  | onSuccess (now : ℤ)
  | onFailure (now : ℤ)
  deriving DecidableEq

/-- When a call is made. -/
def BreakerCall.now : BreakerCall → ℤ
  | .allow now => now
  | .onSuccess now => now
  | .onFailure now => now

/-- The call reports an outcome. -/
def BreakerCall.IsOutcome : BreakerCall → Prop
  | .allow _ => False
  | .onSuccess _ => True
  | .onFailure _ => True

/-- A breaker as a machine. -/
def circuitBreaker : Machine CircuitBreaker BreakerCall (Except RelayError String) where
  step breaker call :=
    match call with
    | .allow now => breaker.allow now
    | .onSuccess now =>
      let (answer, breaker) := breaker.onSuccess now
      (.ok answer, breaker)
    | .onFailure now =>
      let (answer, breaker) := breaker.onFailure now
      (.ok answer, breaker)

namespace CircuitBreaker

/-- A breaker built with a threshold and a cooldown alone. -/
def fresh (threshold cooldown : ℤ) (positive : 1 ≤ threshold ∧ 1 ≤ cooldown) : CircuitBreaker :=
  ⟨threshold, cooldown, .closed, 0, -1, positive⟩

/-- The call at a place of a run takes the breaker into a state from another one. -/
def EntersAt (start : CircuitBreaker) (calls : List BreakerCall) (state : BreakerState) (i : ℕ)
    (now : ℤ) : Prop :=
  ∃ call, calls[i]? = some call ∧ call.now = now ∧
    (circuitBreaker.final start (calls.take i)).state ≠ state ∧
    (circuitBreaker.final start (calls.take (i + 1))).state = state

/-- The call at a place of a run is a request that is let through. -/
def AllowedAt (start : CircuitBreaker) (calls : List BreakerCall) (j : ℕ) (now : ℤ) : Prop :=
  ∃ answer, (circuitBreaker.trace start calls)[j]? = some (.allow now, .ok answer)

/-- After the breaker opens nothing is let through before the cooldown is over, and between its
entering half-open and the next outcome no two requests are. -/
structure Protects (start : CircuitBreaker) (calls : List BreakerCall) : Prop where
  cooled : ∀ i opened j now, EntersAt start calls .opened i opened → i < j →
    AllowedAt start calls j now → opened + start.cooldown ≤ now
  single : ∀ i entered j k now later, EntersAt start calls .halfOpen i entered → i ≤ j → j < k →
    AllowedAt start calls j now → AllowedAt start calls k later →
      ∃ l call, i < l ∧ l < k ∧ calls[l]? = some call ∧ call.IsOutcome

/-- No success is reported for an open breaker before its cooldown is over, and nothing is requested
of a half-open one, whose trial is under way. -/
def Careful (breaker : CircuitBreaker) : BreakerCall → Prop
  | .allow _ => breaker.state ≠ .halfOpen
  | .onSuccess now => breaker.state = .opened → breaker.openedAt + breaker.cooldown ≤ now
  | .onFailure _ => True

/-! ### One call -/

/-- What a call can do. -/
inductive BreakerStep (breaker : CircuitBreaker) :
    BreakerCall → Except RelayError String → CircuitBreaker → Prop
  | refused (now : ℤ) (error : RelayError) (hstate : breaker.state = .opened)
      (hearly : now < breaker.openedAt + breaker.cooldown) :
      BreakerStep breaker (.allow now) (.error error) breaker
  | trial (now : ℤ) (answer : String) (hstate : breaker.state = .opened)
      (hcooled : breaker.openedAt + breaker.cooldown ≤ now) :
      BreakerStep breaker (.allow now) (.ok answer) { breaker with state := .halfOpen }
  | passed (now : ℤ) (answer : String) (hstate : breaker.state ≠ .opened) :
      BreakerStep breaker (.allow now) (.ok answer) breaker
  | succeeded (now : ℤ) (answer : String) :
      BreakerStep breaker (.onSuccess now) (.ok answer)
        { breaker with state := .closed, failures := 0 }
  | opened (now failures : ℤ) (answer : String) :
      BreakerStep breaker (.onFailure now) (.ok answer)
        { breaker with state := .opened, openedAt := now, failures := failures }
  | counted (now : ℤ) (answer : String) (hstate : breaker.state ≠ .halfOpen) :
      BreakerStep breaker (.onFailure now) (.ok answer)
        { breaker with failures := breaker.failures + 1 }

/-- **One call.** -/
theorem breakerStep (breaker : CircuitBreaker) (call : BreakerCall) :
    ∃ answer next, circuitBreaker.step breaker call = (answer, next) ∧
      BreakerStep breaker call answer next := by
  refine ⟨_, _, rfl, ?_⟩
  cases call with
  | allow now =>
    show BreakerStep breaker (.allow now) (breaker.allow now).1 (breaker.allow now).2
    rw [allow, maybeHalfOpen]
    split_ifs with hcooled hopen hopen
    · cases hopen
    · exact .trial now _ hcooled.1 (by omega)
    · exact .refused now _ hopen (by have := not_and.mp hcooled hopen; omega)
    · exact .passed now _ hopen
  | onSuccess now =>
    have hstep : ({ breaker.maybeHalfOpen now with state := .closed, failures := 0 } :
        CircuitBreaker) = { breaker with state := .closed, failures := 0 } := by
      rw [maybeHalfOpen]
      split <;> rfl
    show BreakerStep breaker (.onSuccess now) (.ok _) { breaker.maybeHalfOpen now with
      state := .closed, failures := 0 }
    rw [hstep]
    exact .succeeded now _
  | onFailure now =>
    show BreakerStep breaker (.onFailure now) (.ok (breaker.onFailure now).1)
      (breaker.onFailure now).2
    rw [onFailure]
    split_ifs with hhalf hthreshold
    · exact .opened now breaker.failures _
    · exact .opened now (breaker.failures + 1) _
    · exact .counted now _ hhalf

/-! ### Runs of careful calls -/

variable {start : CircuitBreaker} {calls : List BreakerCall}

/-- What is let through, is let through by the state that the calls before it lead to. -/
theorem allowedAt_iff {j : ℕ} {now : ℤ} : AllowedAt start calls j now ↔
    calls[j]? = some (.allow now) ∧ ∃ answer,
      (circuitBreaker.step (circuitBreaker.final start (calls.take j)) (.allow now)).1 =
        .ok answer := by
  simp only [AllowedAt, Machine.getElem?_trace, Option.map_eq_some_iff, Prod.mk.injEq]
  constructor
  · rintro ⟨answer, call, hcall, rfl, hanswer⟩
    exact ⟨hcall, answer, hanswer⟩
  · rintro ⟨hcall, answer, hanswer⟩
    exact ⟨answer, _, hcall, rfl, hanswer⟩

theorem cooldown_final (start : CircuitBreaker) (calls : List BreakerCall) :
    (circuitBreaker.final start calls).cooldown = start.cooldown := by
  refine Machine.final_eq_of_step cooldown (fun breaker call => ?_) start calls
  obtain ⟨answer, next, hnext, hstep⟩ := breakerStep breaker call
  rw [hnext]
  cases hstep <;> rfl

/-- A breaker that has opened is still open, and has not opened earlier, unless the cooldown is
over. -/
def Cooling (opened : ℤ) (now : ℤ) (breaker : CircuitBreaker) : Prop :=
  opened + breaker.cooldown ≤ now ∨ breaker.state = .opened ∧ opened ≤ breaker.openedAt

/-- A careful call does not end the cooldown. -/
theorem Cooling.step {opened now : ℤ} {breaker : CircuitBreaker} (h : Cooling opened now breaker)
    {call : BreakerCall} (hnow : now ≤ call.now) (hopened : opened ≤ call.now)
    (hcareful : breaker.Careful call) :
    Cooling opened call.now (circuitBreaker.step breaker call).2 := by
  obtain ⟨answer, next, hnext, hstep⟩ := breakerStep breaker call
  rw [hnext]
  rcases h with hover | ⟨hstate, hat⟩
  · have hcooldown : next.cooldown = breaker.cooldown := by cases hstep <;> rfl
    refine Or.inl ?_
    rw [hcooldown]
    exact hover.trans hnow
  · cases hstep with
    | refused now error => exact Or.inr ⟨hstate, hat⟩
    | trial now answer _ hcooled => exact Or.inl ((add_le_add_left hat _).trans hcooled)
    | passed now answer hother => exact absurd hstate hother
    | succeeded now answer => exact Or.inl ((add_le_add_left hat _).trans (hcareful hstate))
    | opened now failures answer => exact Or.inr ⟨rfl, hopened⟩
    | counted now answer => exact Or.inr ⟨hstate, hat⟩

/-- What is let through of a breaker that is cooling comes after its cooldown. -/
theorem Cooling.of_allowed {opened before now : ℤ} {breaker : CircuitBreaker}
    (h : Cooling opened before breaker) (hnow : before ≤ now) {answer : String}
    (hallowed : (circuitBreaker.step breaker (.allow now)).1 = .ok answer) :
    opened + breaker.cooldown ≤ now := by
  rcases h with hover | ⟨hstate, hat⟩
  · exact hover.trans hnow
  · obtain ⟨answer', next, hnext, hstep⟩ := breakerStep breaker (.allow now)
    rw [hnext] at hallowed
    cases hstep with
    | refused now error => cases hallowed
    | trial now answer _ hcooled => exact (add_le_add_left hat _).trans hcooled
    | passed now answer hother => exact absurd hstate hother

/-- A breaker that opens is cooling: only a failure opens it, and it notes the time. -/
theorem cooling_of_opens {breaker : CircuitBreaker} {call : BreakerCall}
    (hbefore : breaker.state ≠ .opened)
    (hafter : (circuitBreaker.step breaker call).2.state = .opened) :
    Cooling call.now call.now (circuitBreaker.step breaker call).2 := by
  refine Or.inr ⟨hafter, ?_⟩
  obtain ⟨answer, next, hnext, hstep⟩ := breakerStep breaker call
  rw [hnext] at hafter ⊢
  cases hstep with
  | refused _ _ hstate => exact absurd hstate hbefore
  | trial => cases hafter
  | passed _ _ _ => exact absurd hafter hbefore
  | succeeded => cases hafter
  | opened now failures answer => exact le_rfl
  | counted _ _ _ => exact absurd hafter hbefore

/-- Calls come in the order of their times. -/
theorem now_le_of_lt (hclock : (calls.map BreakerCall.now).Pairwise (· ≤ ·)) {k l : ℕ}
    {first second : BreakerCall} (hkl : k < l) (hfirst : calls[k]? = some first)
    (hsecond : calls[l]? = some second) : first.now ≤ second.now := by
  obtain ⟨hk, rfl⟩ := List.getElem?_eq_some_iff.mp hfirst
  obtain ⟨hl, rfl⟩ := List.getElem?_eq_some_iff.mp hsecond
  exact List.pairwise_iff_getElem.mp (List.pairwise_map.mp hclock) k l hk hl hkl

/-- From where it opens on, a breaker of careful calls is cooling. -/
theorem cooling_take (hclock : (calls.map BreakerCall.now).Pairwise (· ≤ ·))
    (h : circuitBreaker.Guarded Careful start calls) {i : ℕ} {opened : ℤ}
    (hopens : EntersAt start calls .opened i opened) {j : ℕ} (hij : i ≤ j) {call : BreakerCall}
    (hcall : calls[j]? = some call) :
    Cooling opened call.now (circuitBreaker.final start (calls.take (j + 1))) := by
  obtain ⟨opening, hopening, rfl, hbefore, hafter⟩ := hopens
  induction j, hij using Nat.le_induction generalizing call with
  | base =>
    obtain rfl := Option.some.inj (hopening.symm.trans hcall)
    rw [Machine.final_take_succ _ _ hcall] at hafter ⊢
    exact cooling_of_opens hbefore hafter
  | succ j hij ih =>
    have hlt : j < calls.length :=
      Nat.lt_of_succ_lt (List.getElem?_eq_some_iff.mp hcall).1
    have hprevious := List.getElem?_eq_getElem hlt
    rw [Machine.final_take_succ _ _ hcall]
    exact (ih hprevious).step (now_le_of_lt hclock (Nat.lt_succ_self j) hprevious hcall)
      (now_le_of_lt hclock (Nat.lt_succ_of_le hij) hopening hcall)
      ((Machine.guarded_iff_getElem? _ _ _ _).mp h (j + 1) call hcall)

/-- From where it enters half-open on, a breaker stays there until an outcome is reported. -/
theorem halfOpen_take {i : ℕ} {entered : ℤ} (henters : EntersAt start calls .halfOpen i entered)
    {k : ℕ} (hik : i < k) (hk : k ≤ calls.length)
    (hnone : ∀ l call, i < l → l < k → calls[l]? = some call → ¬ call.IsOutcome) :
    (circuitBreaker.final start (calls.take k)).state = .halfOpen := by
  obtain ⟨_, -, -, -, hafter⟩ := henters
  induction k, Nat.succ_le_of_lt hik using Nat.le_induction with
  | base => exact hafter
  | succ k hik' ih =>
    have hcall := List.getElem?_eq_getElem (Nat.lt_of_succ_le hk)
    have hstate := ih (Nat.lt_of_succ_le hik') (Nat.le_of_succ_le hk) fun l call hil hlk =>
      hnone l call hil (Nat.lt_succ_of_lt hlk)
    have houtcome := hnone k _ (Nat.lt_of_succ_le hik') (Nat.lt_succ_self k) hcall
    rw [Machine.final_take_succ _ _ hcall]
    generalize calls[k] = call at houtcome
    obtain ⟨answer, next, hnext, hstep⟩ :=
      breakerStep (circuitBreaker.final start (calls.take k)) call
    rw [hnext]
    cases hstep with
    | refused _ _ hother => rw [hstate] at hother; cases hother
    | trial _ _ hother => rfl
    | passed => exact hstate
    | succeeded => exact absurd trivial houtcome
    | opened => exact absurd trivial houtcome
    | counted => exact absurd trivial houtcome

/-- **A circuit breaker.** With calls whose times do not go back, in a run in which no success is
reported for an open breaker before its cooldown is over and nothing is requested of a half-open
one, the breaker protects what it stands before. -/
theorem protects_of_guarded (threshold cooldown : ℤ) (positive : 1 ≤ threshold ∧ 1 ≤ cooldown)
    (calls : List BreakerCall) (hclock : (calls.map BreakerCall.now).Pairwise (· ≤ ·))
    (h : circuitBreaker.Guarded Careful (fresh threshold cooldown positive) calls) :
    Protects (fresh threshold cooldown positive) calls := by
  constructor
  · intro i opened j now hopens hij hallowed
    obtain ⟨hcall, answer, hanswer⟩ := allowedAt_iff.mp hallowed
    obtain ⟨k, rfl⟩ : ∃ k, j = k + 1 := ⟨j - 1, by omega⟩
    have hlt : k < calls.length := Nat.lt_of_succ_lt (List.getElem?_eq_some_iff.mp hcall).1
    have hcooling := cooling_take hclock h hopens (Nat.le_of_lt_succ hij)
      (List.getElem?_eq_getElem hlt)
    have hordered : calls[k].now ≤ now :=
      now_le_of_lt hclock (Nat.lt_succ_self k) (List.getElem?_eq_getElem hlt) hcall
    have hover := hcooling.of_allowed hordered hanswer
    rwa [cooldown_final] at hover
  · intro i entered j k now later henters hij hjk _ hallowed
    obtain ⟨hcall, -⟩ := allowedAt_iff.mp hallowed
    by_contra hnone
    have hhalf := halfOpen_take henters (hij.trans_lt hjk)
      (List.getElem?_eq_some_iff.mp hcall).1.le fun l call hil hlk hl hout =>
        hnone ⟨l, call, hil, hlk, hl, hout⟩
    exact (Machine.guarded_iff_getElem? _ _ _ _).mp h k _ hcall hhalf

instance (breaker : CircuitBreaker) (call : BreakerCall) : Decidable (breaker.Careful call) :=
  match call with
  | .allow _ => inferInstanceAs (Decidable (_ ≠ _))
  | .onSuccess _ => inferInstanceAs (Decidable (_ → _))
  | .onFailure _ => inferInstanceAs (Decidable True)

/-- Two failures open the breaker, a trial fails, and the next one succeeds. A failure is reported
late in between. -/
def recovery : List BreakerCall :=
  [.allow 0, .onFailure 1, .onFailure 2, .allow 5, .onFailure 6, .allow 12, .onFailure 13,
    .allow 23, .onSuccess 24, .allow 24]

/-- **The theorem at a recovery.** -/
theorem recovery_protected : Protects (fresh 2 10 (by decide)) recovery :=
  protects_of_guarded 2 10 (by decide) recovery (by decide) (by decide)

/-- A success that is reported late closes an open breaker, which lets a call through at once. And a
half-open one lets two calls through before any outcome. -/
theorem unprotected_runs :
    ¬ Protects (fresh 1 10 (by decide)) [.onFailure 0, .onSuccess 1, .allow 2] ∧
      ¬ Protects (fresh 1 10 (by decide)) [.onFailure 0, .allow 10, .allow 10] := by
  constructor
  · intro h
    have hover := h.cooled 0 0 2 2 ⟨.onFailure 0, rfl, rfl, by decide, by decide⟩ (by decide)
      ⟨_, rfl⟩
    exact absurd hover (by decide)
  · intro h
    obtain ⟨l, -, hlt, hlt', -⟩ := h.single 1 10 1 2 10 10
      ⟨.allow 10, rfl, rfl, by decide, by decide⟩ le_rfl (by decide) ⟨_, rfl⟩ ⟨_, rfl⟩
    omega

end CircuitBreaker

end Relay
