import Relay.Errors
import Relay.Lib.Machine
import Relay.Lib.Printing
import Relay.Lib.Rounding

/-!
# Token bucket

A bucket holds up to a capacity of tokens and refills at a steady rate. A request spends tokens,
or is told how many are missing and how long to wait. The refill is worked out from the time that
has passed, when somebody asks.

What is served in a stretch of time is then at most the tokens there were at its beginning, which
the capacity bounds, and what was refilled since. The clipping at the capacity only takes tokens
away. A request that was throttled is served once the shortage has been refilled. How long that
takes is computed exactly but printed with one decimal place and a `~`, and where it was rounded
down, the printed wait is a little too short.

Sizes and tokens are rational numbers here.

## Main definitions

* `TokenBucket`, with `fresh`, `refill` and `take`
* `servedWithin`: what a run was served in a stretch of time

## Main results

* `bucket_bounds`: the tokens, the service of every window, and the wait after a refusal
* `quotedWait_too_short`: a printed wait that does not suffice
-/

namespace Relay

/-- A bucket of tokens. -/
structure TokenBucket where
  capacity : ℚ
  refillPerTick : ℚ
  tokens : ℚ
  lastTick : ℤ
  positive : 0 < capacity ∧ 0 < refillPerTick

/-- What a request is told. The shortage and the wait are the printed ones. -/
inductive TakeAnswer where
  | served (size left : ℚ)
  | throttled (size short wait : ℚ)
  deriving DecidableEq

/-- A number as it is printed with one decimal place. -/
def oneDecimal (x : ℚ) : ℚ := Rounding.roundHalfEven (10 * x) / 10

/-- The text of a number of tenths. -/
def tenthsText (x : ℚ) : String :=
  let tenths := ⌊10 * |x|⌋
  (if x < 0 then "-" else "") ++ s!"{tenths / 10}.{tenths % 10}"

/-- The text of an answer. -/
def TakeAnswer.text : TakeAnswer → String
  | .served size left => s!"served {Printing.numberText size}; {tenthsText left} token(s) left"
  | .throttled size short wait =>
    s!"throttled {Printing.numberText size}: short {tenthsText short} token(s), "
      ++ s!"wait ~{tenthsText wait} tick(s); "
      ++ "the burst is spent and throughput now falls to the refill rate"

namespace TokenBucket

/-- A bucket built with a capacity and a rate alone is full. -/
def fresh (capacity refillPerTick : ℚ) (positive : 0 < capacity ∧ 0 < refillPerTick) :
    TokenBucket :=
  ⟨capacity, refillPerTick, capacity, 0, positive⟩

/-- `_refill`. -/
def refill (bucket : TokenBucket) (now : ℤ) : Except RelayError TokenBucket :=
  if now < bucket.lastTick then
    .error (.invalid "time went backwards; refill needs a monotonic clock")
  else
    let elapsed := now - bucket.lastTick
    .ok { bucket with
      tokens := min bucket.capacity (bucket.tokens + elapsed * bucket.refillPerTick)
      lastTick := now }

/-- `take`. -/
def take (bucket : TokenBucket) (now : ℤ) (size : ℚ) : Except RelayError TakeAnswer × TokenBucket :=
  if bucket.capacity < size then
    (.error (.invalid (s!"a request of {Printing.numberText size} exceeds the bucket capacity "
      ++ s!"{Printing.numberText bucket.capacity}; it can never be satisfied and "
      ++ "waiting forever is worse than rejecting it")), bucket)
  else
    match bucket.refill now with
    | .error refusal => (.error refusal, bucket)
    | .ok bucket =>
      if size ≤ bucket.tokens then
        (.ok (.served size (oneDecimal (bucket.tokens - size))),
          { bucket with tokens := bucket.tokens - size })
      else
        let deficit := size - bucket.tokens
        let wait := deficit / bucket.refillPerTick
        (.ok (.throttled size (oneDecimal deficit) (oneDecimal wait)), bucket)

end TokenBucket

/-! ## Runs -/

/-- A request of some size at a tick. -/
structure Take where
  now : ℤ
  size : ℚ

/-- A bucket as a machine. A request that raises leaves the bucket as it is. -/
def tokenBucket : Machine TokenBucket Take (Except RelayError TakeAnswer) where
  step bucket request := bucket.take request.now request.size

/-- What an answer lets through. -/
def servedSize : Except RelayError TakeAnswer → ℚ
  | .ok (.served size _) => size
  | _ => 0

/-- What a run is served at ticks from `s` to `t`. -/
def servedWithin (s t : ℤ) (events : List (Take × Except RelayError TakeAnswer)) : ℚ :=
  (events.map fun e => if s ≤ e.1.now ∧ e.1.now ≤ t then servedSize e.2 else 0).sum

namespace TokenBucket

/-! ### One request -/

/-- The tokens at a tick if nothing is taken until then. -/
def filled (bucket : TokenBucket) (now : ℤ) : ℚ :=
  min bucket.capacity (bucket.tokens + (now - bucket.lastTick : ℤ) * bucket.refillPerTick)

/-- The bucket after a tick at which it has some tokens. -/
def setTokens (bucket : TokenBucket) (tokens : ℚ) (now : ℤ) : TokenBucket :=
  { bucket with tokens := tokens, lastTick := now }

/-- The bucket's numbers make sense. -/
def Bounded (bucket : TokenBucket) : Prop := 0 ≤ bucket.tokens ∧ bucket.tokens ≤ bucket.capacity

/-- What a request can do. -/
inductive TakeStep (bucket : TokenBucket) (request : Take) :
    Except RelayError TakeAnswer → TokenBucket → Prop
  | raised (refusal : RelayError) : TakeStep bucket request (.error refusal) bucket
  | served (hnow : bucket.lastTick ≤ request.now)
      (hsize : request.size ≤ bucket.filled request.now) :
      TakeStep bucket request
        (.ok (.served request.size (oneDecimal (bucket.filled request.now - request.size))))
        (bucket.setTokens (bucket.filled request.now - request.size) request.now)
  | throttled (hnow : bucket.lastTick ≤ request.now) (hcapacity : request.size ≤ bucket.capacity)
      (hsize : bucket.filled request.now < request.size) :
      TakeStep bucket request
        (.ok (.throttled request.size (oneDecimal (request.size - bucket.filled request.now))
          (oneDecimal ((request.size - bucket.filled request.now) / bucket.refillPerTick))))
        (bucket.setTokens (bucket.filled request.now) request.now)

theorem takeStep (bucket : TokenBucket) (request : Take) :
    TakeStep bucket request (tokenBucket.step bucket request).1
      (tokenBucket.step bucket request).2 := by
  show TakeStep bucket request (bucket.take request.now request.size).1
    (bucket.take request.now request.size).2
  rw [take]
  split
  · exact .raised _
  · next hcapacity =>
    rw [refill]
    split_ifs with hback
    · exact .raised _
    · show TakeStep bucket request (ite _ _ _ : Except RelayError TakeAnswer × TokenBucket).1
        (ite _ _ _ : Except RelayError TakeAnswer × TokenBucket).2
      split
      · next hsize => exact .served (not_lt.mp hback) hsize
      · next hsize => exact .throttled (not_lt.mp hback) (not_lt.mp hcapacity) (not_le.mp hsize)

theorem filled_le (bucket : TokenBucket) (now : ℤ) : bucket.filled now ≤ bucket.capacity :=
  min_le_left _ _

/-- By the passing of time a bucket gains no more than the refill. -/
theorem filled_le_add (bucket : TokenBucket) (now : ℤ) :
    bucket.filled now ≤ bucket.tokens + (now - bucket.lastTick) * bucket.refillPerTick := by
  rw [← Int.cast_sub]
  exact min_le_right _ _

/-- The refill of a stretch of time. -/
theorem refill_nonneg (bucket : TokenBucket) {s t : ℤ} (hst : s ≤ t) :
    0 ≤ bucket.refillPerTick * ((t : ℚ) - s) :=
  mul_nonneg bucket.positive.2.le (sub_nonneg.mpr (Int.cast_le.mpr hst))

theorem Bounded.filled_nonneg {bucket : TokenBucket} (h : bucket.Bounded) {now : ℤ}
    (hnow : bucket.lastTick ≤ now) : 0 ≤ bucket.filled now := by
  have helapsed : (0 : ℚ) ≤ (now - bucket.lastTick : ℤ) := Int.cast_nonneg (sub_nonneg.mpr hnow)
  exact le_min bucket.positive.1.le
    (add_nonneg h.1 (mul_nonneg helapsed bucket.positive.2.le))

/-- The knobs of a bucket stay as they are. -/
theorem TakeStep.settings {bucket after : TokenBucket} {request : Take}
    {answer : Except RelayError TakeAnswer} (h : TakeStep bucket request answer after) :
    after.capacity = bucket.capacity ∧ after.refillPerTick = bucket.refillPerTick := by
  cases h <;> exact ⟨rfl, rfl⟩

theorem TakeStep.bounded {bucket after : TokenBucket} {request : Take}
    {answer : Except RelayError TakeAnswer} (h : TakeStep bucket request answer after)
    (hsize : 0 ≤ request.size) (hbounded : bucket.Bounded) : after.Bounded := by
  cases h with
  | raised refusal => exact hbounded
  | served hnow hle =>
    exact ⟨sub_nonneg.mpr hle, (sub_le_self _ hsize).trans (bucket.filled_le request.now)⟩
  | throttled hnow hcapacity hlt =>
    exact ⟨hbounded.filled_nonneg hnow, bucket.filled_le request.now⟩

/-! ### Windows -/

/-- What a run has been served in a window, and what could still be served at once: before the
window nothing, in it no more than the capacity and the refill so far, after it no more than the
capacity and the whole refill. -/
structure WithinBudget (capacity rate : ℚ) (s t : ℤ)
    (events : List (Take × Except RelayError TakeAnswer)) (bucket : TokenBucket) : Prop where
  bounded : bucket.Bounded
  settings : bucket.capacity = capacity ∧ bucket.refillPerTick = rate
  before : bucket.lastTick < s → servedWithin s t events = 0
  during : s ≤ bucket.lastTick → bucket.lastTick ≤ t →
    servedWithin s t events + bucket.tokens ≤ capacity + rate * (bucket.lastTick - s)
  after : t < bucket.lastTick → servedWithin s t events ≤ capacity + rate * (t - s)

theorem servedWithin_append_singleton (s t : ℤ)
    (events : List (Take × Except RelayError TakeAnswer)) (request : Take)
    (answer : Except RelayError TakeAnswer) :
    servedWithin s t (events ++ [(request, answer)]) = servedWithin s t events +
      if s ≤ request.now ∧ request.now ≤ t then servedSize answer else 0 := by
  simp [servedWithin]

/-- The bound of a window, wherever the run has got to. -/
theorem WithinBudget.served_le {capacity rate : ℚ} {s t : ℤ} (hst : s ≤ t)
    {events : List (Take × Except RelayError TakeAnswer)} {bucket : TokenBucket}
    (h : WithinBudget capacity rate s t events bucket) :
    servedWithin s t events ≤ capacity + rate * (t - s) := by
  obtain ⟨rfl, rfl⟩ := h.settings
  rcases lt_or_ge bucket.lastTick s with hlast | hlast
  · rw [h.before hlast]
    exact add_nonneg bucket.positive.1.le (bucket.refill_nonneg hst)
  · rcases le_or_gt bucket.lastTick t with hend | hend
    · -- what is left in the bucket at the end of the window does not count
      have hduring := h.during hlast hend
      have hleft := h.bounded.1
      have hrest := bucket.refill_nonneg hend
      linarith
    · exact h.after hend

/-- Time passes until a tick, and some of what the bucket holds then is handed out. -/
theorem WithinBudget.advance {capacity rate : ℚ} {s t : ℤ} (hst : s ≤ t)
    {events : List (Take × Except RelayError TakeAnswer)} {bucket : TokenBucket} {request : Take}
    {answer : Except RelayError TakeAnswer} (h : WithinBudget capacity rate s t events bucket)
    (hnow : bucket.lastTick ≤ request.now) {left : ℚ}
    (hleft : servedSize answer + left = bucket.filled request.now)
    (hbounded : (bucket.setTokens left request.now).Bounded) :
    WithinBudget capacity rate s t (events ++ [(request, answer)])
      (bucket.setTokens left request.now) := by
  obtain ⟨rfl, rfl⟩ := h.settings
  have hgain := bucket.filled_le_add request.now
  have hfull := bucket.filled_le request.now
  refine ⟨hbounded, ⟨rfl, rfl⟩, fun hbefore => ?_, fun hs ht => ?_, fun hafter => ?_⟩
  all_goals rw [servedWithin_append_singleton]
  · change request.now < s at hbefore
    rw [h.before (hnow.trans_lt hbefore), if_neg fun hin => hbefore.not_ge hin.1, add_zero]
  · change s ≤ request.now at hs
    change request.now ≤ t at ht
    show _ + left ≤ bucket.capacity + bucket.refillPerTick * (request.now - s)
    rw [if_pos ⟨hs, ht⟩, add_assoc, hleft]
    rcases lt_or_ge bucket.lastTick s with hlast | hlast
    · have hnone := h.before hlast
      have hpassed := bucket.refill_nonneg hs
      linarith
    · have hduring := h.during hlast (hnow.trans ht)
      linarith
  · change t < request.now at hafter
    rw [if_neg fun hin => hafter.not_ge hin.2, add_zero]
    exact h.served_le hst

theorem TakeStep.withinBudget {capacity rate : ℚ} {s t : ℤ} (hst : s ≤ t)
    {events : List (Take × Except RelayError TakeAnswer)} {bucket after : TokenBucket}
    {request : Take} {answer : Except RelayError TakeAnswer}
    (h : TakeStep bucket request answer after) (hsize : 0 ≤ request.size)
    (hbudget : WithinBudget capacity rate s t events bucket) :
    WithinBudget capacity rate s t (events ++ [(request, answer)]) after := by
  have hbounded := h.bounded hsize hbudget.bounded
  cases h with
  | raised refusal =>
    have hsame : servedWithin s t (events ++ [(request, .error refusal)]) =
        servedWithin s t events := by
      rw [servedWithin_append_singleton]
      exact add_eq_left.mpr (ite_self _)
    refine ⟨hbounded, hbudget.settings, ?_, ?_, ?_⟩
    all_goals rw [hsame]
    · exact hbudget.before
    · exact hbudget.during
    · exact hbudget.after
  | served hnow hle => exact hbudget.advance hst hnow (add_sub_cancel _ _) hbounded
  | throttled hnow hcapacity hlt => exact hbudget.advance hst hnow (zero_add _) hbounded

theorem withinBudget_fresh {capacity rate : ℚ} (positive : 0 < capacity ∧ 0 < rate) {s t : ℤ}
    (hst : s ≤ t) : WithinBudget capacity rate s t [] (fresh capacity rate positive) := by
  refine ⟨⟨positive.1.le, le_rfl⟩, ⟨rfl, rfl⟩, fun _ => rfl, fun hs _ => ?_, fun _ => ?_⟩
  · show 0 + capacity ≤ capacity + rate * ((fresh capacity rate positive).lastTick - s)
    rw [zero_add]
    exact le_add_of_nonneg_right ((fresh capacity rate positive).refill_nonneg hs)
  · exact add_nonneg positive.1.le ((fresh capacity rate positive).refill_nonneg hst)

/-! ### Waiting -/

theorem take_eq_served (bucket : TokenBucket) {now : ℤ} {size : ℚ}
    (hcapacity : size ≤ bucket.capacity) (hnow : bucket.lastTick ≤ now)
    (hsize : size ≤ bucket.filled now) :
    (bucket.take now size).1 = .ok (.served size (oneDecimal (bucket.filled now - size))) := by
  rw [take, if_neg (not_lt.mpr hcapacity), refill, if_neg (not_lt.mpr hnow)]
  exact congrArg Prod.fst (if_pos hsize)

/-- **Waiting.** Once the shortage has been refilled, the request is served. -/
theorem take_of_waited (bucket : TokenBucket) {now later : ℤ} {size : ℚ}
    (hcapacity : size ≤ bucket.capacity) (hshort : bucket.filled now < size)
    (hlater : now + (size - bucket.filled now) / bucket.refillPerTick ≤ later) :
    ∃ left, ((bucket.setTokens (bucket.filled now) now).take later size).1 =
      .ok (.served size left) := by
  have hrate := bucket.positive.2
  have hwait : 0 < (size - bucket.filled now) / bucket.refillPerTick :=
    div_pos (sub_pos.mpr hshort) hrate
  have hnow : now ≤ later := by
    have h : (now : ℚ) ≤ later := by linarith
    exact Int.cast_le.mp h
  have hrefilled : size - bucket.filled now ≤ (later - now : ℤ) * bucket.refillPerTick := by
    rw [← div_le_iff₀ hrate, Int.cast_sub]
    linarith
  exact ⟨_, take_eq_served _ hcapacity hnow (le_min hcapacity (sub_le_iff_le_add'.mp hrefilled))⟩

theorem abs_oneDecimal_sub_le (x : ℚ) : |oneDecimal x - x| ≤ 1 / 20 := by
  have hnearest := Rounding.abs_roundHalfEven_sub_le (10 * x) (round (10 * x))
  rw [abs_sub_comm (round (10 * x) : ℚ)] at hnearest
  have hhalf := hnearest.trans (abs_sub_round (10 * x))
  have hscaled : oneDecimal x - x = (Rounding.roundHalfEven (10 * x) - 10 * x) / 10 := by
    rw [oneDecimal]
    ring
  rw [hscaled, abs_div, abs_of_pos (by norm_num : (0 : ℚ) < 10)]
  linarith

/-! ### The bucket -/

/-- **Token bucket.** In every run of requests on a fresh bucket the tokens stay between zero and
the capacity, and what any window is served is at most the capacity and the refill of the window.
After a refusal the wait that the bucket works out is long enough, and the wait it prints is within
half a tenth of that one. -/
theorem bucket_bounds (capacity refillPerTick : ℚ) (positive : 0 < capacity ∧ 0 < refillPerTick)
    (requests : List Take) (hsizes : ∀ r ∈ requests, 0 ≤ r.size) {bucket : TokenBucket}
    (hbucket : tokenBucket.final (fresh capacity refillPerTick positive) requests = bucket) :
    (0 ≤ bucket.tokens ∧ bucket.tokens ≤ capacity) ∧
      (∀ s t : ℤ, s ≤ t →
        servedWithin s t (tokenBucket.trace (fresh capacity refillPerTick positive) requests) ≤
          capacity + refillPerTick * (t - s)) ∧
      ∀ (now : ℤ) (size : ℚ) (short wait : ℚ) (after : TokenBucket),
        bucket.take now size = (.ok (.throttled size short wait), after) →
        |wait - (size - after.tokens) / refillPerTick| ≤ 1 / 20 ∧
          ∀ later : ℤ, now + (size - after.tokens) / refillPerTick ≤ later →
            ∃ left, (after.take later size).1 = .ok (.served size left) := by
  have hrun (s t : ℤ) (hst : s ≤ t) : WithinBudget capacity refillPerTick s t
      (tokenBucket.trace (fresh capacity refillPerTick positive) requests) bucket := by
    rw [← hbucket]
    exact Machine.trace_induction (withinBudget_fresh positive hst)
      (fun past bucket request hbudget hsize =>
        (bucket.takeStep request).withinBudget hst hsize hbudget)
      (tokenBucket.guarded_of_forall_mem hsizes)
  obtain ⟨hbounded, ⟨rfl, rfl⟩, -, -, -⟩ := hrun 0 0 le_rfl
  refine ⟨hbounded, fun s t hst => ?_, fun now size short wait after hafter => ?_⟩
  · exact (hrun s t hst).served_le hst
  · have hstep := bucket.takeStep ⟨now, size⟩
    rw [show tokenBucket.step bucket ⟨now, size⟩ = _ from hafter] at hstep
    cases hstep with
    | throttled hnow hcapacity hshort =>
      exact ⟨abs_oneDecimal_sub_le _, fun later => bucket.take_of_waited hcapacity hshort⟩

/-- A burst that empties the bucket, and a request that has to wait a little more than a tick. -/
theorem bucket_bounds_burst :
    servedWithin 0 5 (tokenBucket.trace (fresh 100 1 (by decide +kernel)) [⟨0, 100⟩]) ≤ 105 ∧
      ∃ left, ((((tokenBucket.final (fresh 100 1 (by decide +kernel)) [⟨0, 100⟩]).take 0
        (33 / 32)).2).take 2 (33 / 32)).1 = .ok (.served (33 / 32) left) := by
  have hthrottled : ((tokenBucket.final (fresh 100 1 (by decide +kernel)) [⟨0, 100⟩]).take 0
      (33 / 32)).1 = .ok (.throttled (33 / 32) 1 1) := by decide +kernel
  obtain ⟨-, hwindow, hwait⟩ := bucket_bounds 100 1 (by decide +kernel) [⟨0, 100⟩]
    (by decide +kernel) rfl
  refine ⟨(hwindow 0 5 (by decide)).trans (by norm_num), ?_⟩
  exact (hwait 0 (33 / 32) 1 1 _ (Prod.ext hthrottled rfl)).2 2 (by decide +kernel)

/-- The wait of a request of 33/32 on an empty bucket that refills by one a tick is printed as 1. -/
theorem quotedWait_too_short :
    ¬ ∀ (requests : List Take), (∀ r ∈ requests, 0 ≤ r.size) →
      ∀ (now : ℤ) (size : ℚ) (short wait : ℚ) (after : TokenBucket), 0 ≤ size →
        (tokenBucket.final (fresh 100 1 (by decide +kernel)) requests).take now size =
          (.ok (.throttled size short wait), after) →
        ∀ later : ℤ, now + wait ≤ later →
          ∃ left, (after.take later size).1 = .ok (.served size left) := by
  intro h
  have hthrottled : ((tokenBucket.final (fresh 100 1 (by decide +kernel)) [⟨0, 100⟩]).take 0
      (33 / 32)).1 = .ok (.throttled (33 / 32) 1 1) := by decide +kernel
  obtain ⟨left, hserved⟩ := h [⟨0, 100⟩] (by decide +kernel) 0 (33 / 32) 1 1 _
    (by decide +kernel) (Prod.ext hthrottled rfl) 1 (by decide +kernel)
  have hagain : (((tokenBucket.final (fresh 100 1 (by decide +kernel)) [⟨0, 100⟩]).take 0
      (33 / 32)).2.take 1 (33 / 32)).1 = .ok (.throttled (33 / 32) 0 0) := by decide +kernel
  rw [hagain] at hserved
  cases hserved

end TokenBucket

end Relay
