import Mathlib.Algebra.Order.Ring.Int
import Relay.Errors
import Relay.Lib.Machine

/-!
# Lease locks

A lock is held for the duration of a lease, and longer if its holder renews it in time. A lock that
is not held, because nobody has it or because the lease is over, goes to whoever asks; a lock that
is held goes to nobody but its holder. Every acquisition draws a new token, and a resource guarded
by the lock refuses a token that is not the newest.

Exclusion in time and exclusion by token are two arguments. The first rests on the clock: the lock
keeps one expiry, and that of the current holder is the last of all leases there have been, so
whoever takes the lock over does so after all of them (`Excludes`). The second does not look at the
clock at all.

## Scope

The text on the state of the lock is left out.

## Main definitions

* `LeaseLock`, with `acquire`, `renew` and `guard`
* `leases`, `tokens`: what was granted in a run

## Main results

* `leases_exclude_and_guard_iff`: leases of different holders do not overlap, tokens increase, and
  only the newest token passes the guard
-/

namespace Relay

/-- A lock with a lease. -/
structure LeaseLock where
  leaseDuration : ℤ
  holder : String := ""
  expiresAt : ℤ := -1
  fencingToken : ℤ := 0
  /-- The constructor refuses other durations. -/
  leaseDuration_pos : 1 ≤ leaseDuration

namespace LeaseLock

/-- `_held`. -/
def Held (lock : LeaseLock) (now : ℤ) : Prop := lock.holder ≠ "" ∧ now < lock.expiresAt

instance (lock : LeaseLock) (now : ℤ) : Decidable (lock.Held now) :=
  inferInstanceAs (Decidable (lock.holder ≠ "" ∧ now < lock.expiresAt))

/-- `acquire`. -/
def acquire (lock : LeaseLock) (who : String) (now : ℤ) : Except RelayError ℤ × LeaseLock :=
  if lock.Held now ∧ lock.holder ≠ who then
    (.error (.invalid (s!"lock held by '{lock.holder}' until {lock.expiresAt}; not "
      ++ "granting to another until it expires or is released")), lock)
  else
    (.ok (lock.fencingToken + 1), { lock with
      holder := who
      expiresAt := now + lock.leaseDuration
      fencingToken := lock.fencingToken + 1 })

/-- `renew`. -/
def renew (lock : LeaseLock) (who : String) (now : ℤ) : Except RelayError String × LeaseLock :=
  if ¬ lock.Held now ∨ lock.holder ≠ who then
    (.error (.invalid (s!"'{who}' does not hold the lock (holder '{lock.holder}'); a "
      ++ "holder that stopped renewing loses it at expiry")), lock)
  else
    let renewed := { lock with expiresAt := now + lock.leaseDuration }
    (.ok s!"renewed by '{who}' until {renewed.expiresAt}", renewed)

/-- `guard`. -/
def guard (lock : LeaseLock) (token : ℤ) : Except RelayError String :=
  if token < lock.fencingToken then
    .error (.invalid (s!"fencing token {token} is older than {lock.fencingToken}; a "
      ++ "paused holder resumed after its lease, fenced from acting"))
  else .ok s!"operation with token {token} allowed"

theorem exists_guard_eq_ok_iff {lock : LeaseLock} {token : ℤ} :
    (∃ note, lock.guard token = .ok note) ↔ lock.fencingToken ≤ token := by
  rw [guard]
  split
  · next hold => exact iff_of_false (fun ⟨_, h⟩ => by cases h) (not_le.mpr hold)
  · next hnew => exact iff_of_true ⟨_, rfl⟩ (not_lt.mp hnew)

end LeaseLock

/-! ## Runs -/

/-- A call to the lock. -/
inductive LeaseCall where
  | acquire (who : String) (now : ℤ)
  | renew (who : String) (now : ℤ)
  | guard (token : ℤ)

/-- The caller names itself. -/
def LeaseCall.Named : LeaseCall → Prop
  | .acquire who _ | .renew who _ => who ≠ ""
  | .guard _ => True

/-- What a call answers. -/
inductive LeaseAnswer where
  | acquired (answer : Except RelayError ℤ)
  | renewed (answer : Except RelayError String)
  | guarded (answer : Except RelayError String)

/-- The lock as a component. -/
def leaseLock : Machine LeaseLock LeaseCall LeaseAnswer where
  step lock
    | .acquire who now => ((lock.acquire who now).map .acquired id)
    | .renew who now => ((lock.renew who now).map .renewed id)
    | .guard token => (.guarded (lock.guard token), lock)

/-- A lease: whose it is, when it was granted or renewed, and when it expires. -/
structure Lease where
  holder : String
  since : ℤ
  expiry : ℤ

/-- The lease is valid at a time. -/
def Lease.ValidAt (lease : Lease) (t : ℤ) : Prop := lease.since ≤ t ∧ t < lease.expiry

/-- The lease that a call was granted, if it was granted one. -/
def Lease.ofEvent (duration : ℤ) : LeaseCall × LeaseAnswer → Option Lease
  | (.acquire who now, .acquired (.ok _)) => some ⟨who, now, now + duration⟩
  | (.renew who now, .renewed (.ok _)) => some ⟨who, now, now + duration⟩
  | _ => none

/-- The token that a call was given, if it was given one. -/
def tokenOfEvent : LeaseCall × LeaseAnswer → Option ℤ
  | (.acquire _ _, .acquired (.ok token)) => some token
  | _ => none

/-- The leases of a run, in the order they were granted. -/
def leases (lock : LeaseLock) (calls : List LeaseCall) : List Lease :=
  (leaseLock.trace lock calls).filterMap (Lease.ofEvent lock.leaseDuration)

/-- The tokens of a run, in the order they were given. -/
def tokens (lock : LeaseLock) (calls : List LeaseCall) : List ℤ :=
  (leaseLock.trace lock calls).filterMap tokenOfEvent

/-- A lock that nobody has had. -/
def LeaseLock.fresh (duration : ℤ) (h : 1 ≤ duration) : LeaseLock where
  leaseDuration := duration
  leaseDuration_pos := h

/-- What a call does: it is refused or only looks, it grants a lease with a new token, or it grants
a lease to the holder without one. -/
inductive LeaseStep (lock : LeaseLock) : LeaseCall → LeaseAnswer → LeaseLock → Prop
  | idle {call : LeaseCall} {answer : LeaseAnswer}
      (lease : Lease.ofEvent lock.leaseDuration (call, answer) = none)
      (token : tokenOfEvent (call, answer) = none) : LeaseStep lock call answer lock
  | acquired {who : String} {now : ℤ} (free : lock.Held now → lock.holder = who) :
      LeaseStep lock (.acquire who now) (.acquired (.ok (lock.fencingToken + 1))) { lock with
        holder := who
        expiresAt := now + lock.leaseDuration
        fencingToken := lock.fencingToken + 1 }
  | renewed {now : ℤ} {note : String} (held : lock.Held now) :
      LeaseStep lock (.renew lock.holder now) (.renewed (.ok note))
        { lock with expiresAt := now + lock.leaseDuration }

theorem leaseStep_step (lock : LeaseLock) (call : LeaseCall) :
    LeaseStep lock call (leaseLock.step lock call).1 (leaseLock.step lock call).2 := by
  cases call with
  | acquire who now =>
    simp only [leaseLock, LeaseLock.acquire]
    split
    · exact .idle rfl rfl
    · next hfree =>
      refine .acquired fun hheld => ?_
      by_contra hne
      exact hfree ⟨hheld, hne⟩
  | renew who now =>
    simp only [leaseLock, LeaseLock.renew]
    split
    · exact .idle rfl rfl
    · next hheld =>
      rw [not_or, not_not, not_not] at hheld
      obtain ⟨hheld, rfl⟩ := hheld
      exact .renewed hheld
  | guard token => exact .idle rfl rfl

/-! ## Exclusion in time -/

/-- The leases granted so far, oldest first, and the lock they leave. The lock has the expiry of one
of them and none of them lasts longer; those of other holders were over when the current holder's
last one began. -/
structure Excludes (duration : ℤ) (granted : List Lease) (lock : LeaseLock) : Prop where
  leaseDuration : lock.leaseDuration = duration
  expiry : ∀ l ∈ granted, l.expiry = l.since + duration
  holder : ∀ l ∈ granted, lock.holder ≠ ""
  le : ∀ l ∈ granted, l.expiry ≤ lock.expiresAt
  last : granted ≠ [] → ∃ l ∈ granted, lock.expiresAt = l.expiry
  others : ∀ l ∈ granted, l.holder ≠ lock.holder → l.expiry ≤ lock.expiresAt - duration
  pairwise : granted.Pairwise fun l l' => l.holder ≠ l'.holder → l.expiry ≤ l'.since

/-- One more lease, at a time when the lock is free or its holder's. -/
theorem Excludes.append {duration : ℤ} {granted : List Lease} {lock lock' : LeaseLock}
    (h : Excludes duration granted lock) {who : String} {now : ℤ} (hwho : who ≠ "")
    (hfree : lock.Held now → lock.holder = who) (hnow : ∀ l ∈ granted, l.since ≤ now)
    (hholder : lock'.holder = who) (hexpiresAt : lock'.expiresAt = now + duration)
    (hduration : lock'.leaseDuration = lock.leaseDuration) :
    Excludes duration (granted ++ [⟨who, now, now + duration⟩]) lock' := by
  -- leases of others are over: they are older than the holder's last one, or the lock was free
  have hover : ∀ l ∈ granted, l.holder ≠ who → l.expiry ≤ now := by
    intro l hl hne
    by_cases hsame : lock.holder = who
    · have hother := h.others l hl (hsame ▸ hne)
      obtain ⟨last, hlast, hexpires⟩ := h.last (List.ne_nil_of_mem hl)
      have hsince := hnow last hlast
      rw [hexpires, h.expiry last hlast] at hother
      omega
    · have hexpired : ¬ now < lock.expiresAt := fun hlt => hsame (hfree ⟨h.holder l hl, hlt⟩)
      exact (h.le l hl).trans (not_lt.mp hexpired)
  refine ⟨hduration.trans h.leaseDuration, ?_, ?_, ?_, ?_, ?_, ?_⟩
  · exact forall_mem_append_singleton.mpr ⟨h.expiry, rfl⟩
  · intro l _
    rwa [hholder]
  · rw [hexpiresAt]
    refine forall_mem_append_singleton.mpr ⟨fun l hl => ?_, le_rfl⟩
    have hsince := hnow l hl
    have hexpiry := h.expiry l hl
    omega
  · exact fun _ => ⟨_, List.mem_append_right _ (List.mem_singleton_self _), hexpiresAt⟩
  · rw [hholder, hexpiresAt, add_sub_cancel_right]
    exact forall_mem_append_singleton.mpr ⟨hover, fun hne => absurd rfl hne⟩
  · exact pairwise_append_singleton.mpr ⟨h.pairwise, hover⟩

/-- Of two leases of different holders, one is over when the other begins. -/
theorem Excludes.disjoint {duration : ℤ} {granted : List Lease} {lock : LeaseLock}
    (h : Excludes duration granted lock) : ∀ l ∈ granted, ∀ l' ∈ granted, l.holder ≠ l'.holder →
      l.expiry ≤ l'.since ∨ l'.expiry ≤ l.since := by
  intro l hl l' hl'
  refine List.Pairwise.forall_of_forall_of_flip
    (R := fun l l' => l.holder ≠ l'.holder → l.expiry ≤ l'.since ∨ l'.expiry ≤ l.since)
    (fun l _ hne => absurd rfl hne) ?_ ?_ hl hl'
  · exact h.pairwise.imp fun hle hne => Or.inl (hle hne)
  · exact h.pairwise.imp fun hle hne => Or.inr (hle hne.symm)

theorem Excludes.step {duration : ℤ} {past : List (LeaseCall × LeaseAnswer)}
    {lock lock' : LeaseLock} {call : LeaseCall} {answer : LeaseAnswer}
    (h : Excludes duration (past.filterMap (Lease.ofEvent duration)) lock) (hcall : call.Named)
    (hstep : LeaseStep lock call answer lock')
    (htime : ((past ++ [(call, answer)]).filterMap (Lease.ofEvent duration)).Pairwise
      fun l l' => l.since ≤ l'.since) :
    Excludes duration ((past ++ [(call, answer)]).filterMap (Lease.ofEvent duration)) lock' := by
  rw [List.filterMap_append] at htime ⊢
  cases hstep with
  | idle lease token =>
    rw [h.leaseDuration] at lease
    rwa [List.filterMap_cons_none lease, List.filterMap_nil, List.append_nil]
  | @acquired who now free =>
    refine h.append hcall free (fun l hl => ?_) rfl (congrArg (now + ·) h.leaseDuration) rfl
    exact (pairwise_append_singleton.mp htime).2 l hl
  | @renewed now note held =>
    refine h.append hcall (fun _ => rfl) (fun l hl => ?_) rfl
      (congrArg (now + ·) h.leaseDuration) rfl
    exact (pairwise_append_singleton.mp htime).2 l hl

theorem excludes_run {duration : ℤ} {hduration : 1 ≤ duration} {calls : List LeaseCall}
    (hcalls : ∀ call ∈ calls, call.Named)
    (htime : (leases (.fresh duration hduration) calls).Pairwise fun l l' => l.since ≤ l'.since) :
    Excludes duration (leases (.fresh duration hduration) calls)
      (leaseLock.final (.fresh duration hduration) calls) := by
  refine Machine.trace_induction (P := fun past lock =>
    (past.filterMap (Lease.ofEvent duration)).Pairwise (fun l l' => l.since ≤ l'.since) →
      Excludes duration (past.filterMap (Lease.ofEvent duration)) lock) (fun _ => ?_) ?_
    (leaseLock.guarded_of_forall_mem hcalls) htime
  · exact ⟨rfl, by simp, by simp, by simp, by simp, by simp, List.Pairwise.nil⟩
  · intro past lock call h hcall htime
    have hpast := htime
    rw [List.filterMap_append] at hpast
    exact (h (List.pairwise_append.mp hpast).1).step hcall (leaseStep_step lock call) htime

/-! ## Exclusion by token -/

/-- The tokens given so far increase, and the lock has the last of them. -/
structure Fences (given : List ℤ) (lock : LeaseLock) : Prop where
  le : ∀ token ∈ given, token ≤ lock.fencingToken
  last : ∀ token, given.getLast? = some token → lock.fencingToken ≤ token
  pairwise : given.Pairwise (· < ·)

theorem Fences.step {past : List (LeaseCall × LeaseAnswer)} {lock lock' : LeaseLock}
    {call : LeaseCall} {answer : LeaseAnswer} (h : Fences (past.filterMap tokenOfEvent) lock)
    (hstep : LeaseStep lock call answer lock') :
    Fences ((past ++ [(call, answer)]).filterMap tokenOfEvent) lock' := by
  rw [List.filterMap_append]
  cases hstep with
  | idle lease token => rwa [List.filterMap_cons_none token, List.filterMap_nil, List.append_nil]
  | acquired =>
    refine ⟨forall_mem_append_singleton.mpr ⟨fun token htoken => ?_, le_rfl⟩,
      fun token htoken => ?_,
      pairwise_append_singleton.mpr ⟨h.pairwise, fun token htoken => ?_⟩⟩
    · exact (h.le token htoken).trans (lt_add_one _).le
    · exact (Option.some.inj (List.getLast?_concat.symm.trans htoken)).le
    · exact Int.lt_add_one_of_le (h.le token htoken)
  | renewed =>
    show Fences (_ ++ []) _
    rw [List.append_nil]
    exact ⟨h.le, h.last, h.pairwise⟩

theorem fences_run (lock : LeaseLock) (calls : List LeaseCall) :
    Fences (tokens lock calls) (leaseLock.final lock calls) :=
  Machine.trace_induction_of (P := fun past lock => Fences (past.filterMap tokenOfEvent) lock)
    (fun lock call _ => leaseStep_step lock call)
    ⟨by simp, by simp, List.Pairwise.nil⟩ (fun _ _ _ _ _ h hstep => h.step hstep)
    (leaseLock.guarded_true lock calls)

/-- **Lease locks exclude each other and fence.** Let callers name themselves and leases be granted
and renewed at times that do not go back. Then leases of different holders are never valid at the
same time, tokens increase, and the guard passes a token that an acquisition was given exactly as
long as no acquisition has succeeded since. -/
theorem leases_exclude_and_guard_iff (duration : ℤ) (hduration : 1 ≤ duration)
    (calls : List LeaseCall) (hcalls : ∀ call ∈ calls, call.Named)
    (htime : (leases (.fresh duration hduration) calls).Pairwise fun l l' => l.since ≤ l'.since) :
    (∀ l ∈ leases (.fresh duration hduration) calls,
        ∀ l' ∈ leases (.fresh duration hduration) calls, l.holder ≠ l'.holder →
          ∀ t, ¬ (l.ValidAt t ∧ l'.ValidAt t)) ∧
      (tokens (.fresh duration hduration) calls).Pairwise (· < ·) ∧
      ∀ past e rest token,
        leaseLock.trace (.fresh duration hduration) calls = past ++ e :: rest →
          tokenOfEvent e = some token →
            ((∃ note, (leaseLock.final (.fresh duration hduration) calls).guard token = .ok note) ↔
              ∀ e' ∈ rest, tokenOfEvent e' = none) := by
  have hexcludes := excludes_run hcalls htime
  have hfences := fences_run (.fresh duration hduration) calls
  refine ⟨fun l hl l' hl' hne t => ?_, hfences.pairwise, fun past e rest token htrace he => ?_⟩
  · rintro ⟨⟨hsince, hexpiry⟩, ⟨hsince', hexpiry'⟩⟩
    rcases hexcludes.disjoint l hl l' hl' hne with h | h
    · omega
    · omega
  · rw [LeaseLock.exists_guard_eq_ok_iff, ← List.filterMap_eq_nil_iff]
    have htokens : tokens (.fresh duration hduration) calls =
        past.filterMap tokenOfEvent ++ token :: rest.filterMap tokenOfEvent := by
      rw [tokens, htrace, List.filterMap_append, List.filterMap_cons_some he]
    rw [htokens] at hfences
    cases hrest : rest.filterMap tokenOfEvent with
    | nil =>
      rw [hrest] at hfences
      exact iff_of_true (hfences.last token List.getLast?_concat) rfl
    | cons later rest' =>
      rw [hrest] at hfences
      have hlt : token < later :=
        (List.pairwise_cons.mp (List.pairwise_append.mp hfences.pairwise).2.1).1 later
          List.mem_cons_self
      have hle := hfences.le later (by simp)
      exact iff_of_false (by omega) (by simp)

/-- A holder renews once, pauses past its lease, and finds that another has taken the lock over; its
token does not pass any more. -/
theorem leases_exclude_takeover :
    leases (.fresh 10 (by decide)) [.acquire "a" 0, .renew "a" 5, .acquire "b" 15, .renew "a" 16] =
        [⟨"a", 0, 10⟩, ⟨"a", 5, 15⟩, ⟨"b", 15, 25⟩] ∧
      ¬ ∃ note, (leaseLock.final (.fresh 10 (by decide))
        [.acquire "a" 0, .renew "a" 5, .acquire "b" 15, .renew "a" 16]).guard 1 = .ok note := by
  have hleases : leases (.fresh 10 (by decide))
      [.acquire "a" 0, .renew "a" 5, .acquire "b" 15, .renew "a" 16] =
        [⟨"a", 0, 10⟩, ⟨"a", 5, 15⟩, ⟨"b", 15, 25⟩] := rfl
  have h := leases_exclude_and_guard_iff 10 (by decide)
    [.acquire "a" 0, .renew "a" 5, .acquire "b" 15, .renew "a" 16] (by simp [LeaseCall.Named])
    (by rw [hleases]; simp)
  refine ⟨hleases, fun hpasses => ?_⟩
  have hnone := (h.2.2 [] _ _ 1 rfl rfl).mp hpasses (.acquire "b" 15, .acquired (.ok 2))
    (List.mem_cons_of_mem _ List.mem_cons_self)
  cases hnone

end Relay
