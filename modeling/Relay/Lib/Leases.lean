import Relay.Lib.Dict
import Relay.Lib.Since

/-!
# Leases that lapse

Holders are granted leases and renew them. A sweep takes the leases of some holders away, and these
have to be granted anew; until then there is nothing to renew. Where a holder stands is told by the
events alone: its lease is fresh since a time if it was granted or renewed then and nothing happened
to it since, and it has lapsed if it was taken away and has not been granted since.

A table that keeps for every holder the last time and whether the lease has lapsed is changed by
each kind of event in its own way, and tracks where the holders stand.

## Main definitions

* `LeaseEvent`
* `Fresh`, `Lapsed`: where a holder stands
* `LeaseTable`: a table that says so

## Main results

* `LeaseTable.granted`, `LeaseTable.renewed`, `LeaseTable.swept`: what each kind of event does to a
  table
* `LeaseTable.sweep`: a sweep of a dictionary
* `LeaseTable.none_iff`: who is not in the table
-/

namespace Relay

/-- What may happen to the leases of some holders. -/
inductive LeaseEvent (α τ : Type*) where
  | granted (holder : α) (time : τ)
  | renewed (holder : α) (time : τ)
  | lapsed (holders : List α)

namespace LeaseEvent

variable {α τ : Type*}

/-- A lease of the holder begins anew at the time. -/
def Starts (holder : α) (time : τ) : LeaseEvent α τ → Prop
  | .granted a t => a = holder ∧ t = time
  | .renewed a t => a = holder ∧ t = time
  | .lapsed _ => False

/-- A lease of the holder is granted. -/
def Grants (holder : α) : LeaseEvent α τ → Prop
  | .granted a _ => a = holder
  | _ => False

/-- The lease of the holder is taken away. -/
def Ends (holder : α) : LeaseEvent α τ → Prop
  | .lapsed holders => holder ∈ holders
  | _ => False

end LeaseEvent

variable {α τ : Type*} {events : List (LeaseEvent α τ)} {lookup lookup' : α → Option (τ × Bool)}
  {a : α} {t : τ}

/-- The lease of the holder began at the time, and nothing has happened to it since. -/
def Fresh (holder : α) (time : τ) (events : List (LeaseEvent α τ)) : Prop :=
  Since (fun _ e => (∀ t, ¬ e.Starts holder t) ∧ ¬ e.Ends holder) (fun _ e => e.Starts holder time)
    events

/-- The lease of the holder was taken away, and it has not been granted one since. -/
def Lapsed (holder : α) (events : List (LeaseEvent α τ)) : Prop :=
  Since (fun _ e => ¬ e.Grants holder) (fun _ e => e.Ends holder) events

/-- A table of the holders, with the time that the lease of each began and whether it has lapsed. -/
structure LeaseTable (lookup : α → Option (τ × Bool)) (events : List (LeaseEvent α τ)) : Prop where
  fresh : ∀ holder time, lookup holder = some (time, false) ↔ Fresh holder time events
  lapsed : ∀ holder, (∃ time, lookup holder = some (time, true)) ↔ Lapsed holder events

namespace LeaseTable

theorem nil : LeaseTable (fun _ : α => (none : Option (τ × Bool))) [] where
  fresh _ _ := iff_of_false nofun not_since_nil
  lapsed _ := iff_of_false nofun not_since_nil

/-- Where nobody was granted a lease, nobody has one. -/
theorem none_iff (h : LeaseTable lookup events) (a : α) :
    lookup a = none ↔ (∀ t, ¬ Fresh a t events) ∧ ¬ Lapsed a events := by
  rw [← h.lapsed]
  simp only [← h.fresh]
  cases lookup a with
  | none => simp
  | some lease =>
    obtain ⟨t, lapsed⟩ := lease
    cases lapsed <;> simp

variable [DecidableEq α]

theorem granted (h : LeaseTable lookup events)
    (hlookup : ∀ b, lookup' b = if b = a then some (t, false) else lookup b) :
    LeaseTable lookup' (events ++ [.granted a t]) where
  fresh b s := by
    rw [Fresh, since_append_singleton, ← Fresh, ← h.fresh, hlookup]
    by_cases hb : b = a
    · subst hb
      simp [LeaseEvent.Starts, LeaseEvent.Ends]
    · simp [LeaseEvent.Starts, LeaseEvent.Ends, hb, Ne.symm hb]
  lapsed b := by
    rw [Lapsed, since_append_singleton, ← Lapsed, ← h.lapsed, hlookup]
    by_cases hb : b = a
    · simp [LeaseEvent.Grants, LeaseEvent.Ends, hb]
    · simp [LeaseEvent.Grants, LeaseEvent.Ends, hb, Ne.symm hb]

/-- A renewal, of a lease that has not lapsed. -/
theorem renewed (h : LeaseTable lookup events) {s : τ} (hlive : lookup a = some (s, false))
    (hlookup : ∀ b, lookup' b = if b = a then some (t, false) else lookup b) :
    LeaseTable lookup' (events ++ [.renewed a t]) where
  fresh b s := by
    rw [Fresh, since_append_singleton, ← Fresh, ← h.fresh, hlookup]
    by_cases hb : b = a
    · subst hb
      simp [LeaseEvent.Starts, LeaseEvent.Ends]
    · simp [LeaseEvent.Starts, LeaseEvent.Ends, hb, Ne.symm hb]
  lapsed b := by
    rw [Lapsed, since_append_singleton, ← Lapsed, ← h.lapsed, hlookup]
    by_cases hb : b = a
    · simp [LeaseEvent.Grants, LeaseEvent.Ends, hb, hlive]
    · simp [LeaseEvent.Grants, LeaseEvent.Ends, hb]

/-- A sweep, of holders whose leases had not lapsed. -/
theorem swept (h : LeaseTable lookup events) (holders : List α)
    (hholders : ∀ b ∈ holders, ∃ s, lookup b = some (s, false))
    (hlookup : ∀ b, lookup' b =
      if b ∈ holders then (lookup b).map fun lease => (lease.1, true) else lookup b) :
    LeaseTable lookup' (events ++ [.lapsed holders]) where
  fresh b s := by
    rw [Fresh, since_append_singleton, ← Fresh, ← h.fresh, hlookup]
    by_cases hb : b ∈ holders
    · simp [LeaseEvent.Starts, LeaseEvent.Ends, hb]
    · simp [LeaseEvent.Starts, LeaseEvent.Ends, hb]
  lapsed b := by
    rw [Lapsed, since_append_singleton, ← Lapsed, ← h.lapsed, hlookup]
    by_cases hb : b ∈ holders
    · obtain ⟨s, hs⟩ := hholders b hb
      simp [LeaseEvent.Grants, LeaseEvent.Ends, hb, hs]
    · simp [LeaseEvent.Grants, LeaseEvent.Ends, hb]

/-- A sweep of a dictionary, in which the leases of some entries lapse. -/
theorem sweep {β : Type*} {d : Dict α β} {lease : β → τ × Bool} (silent : β → Prop)
    [DecidablePred silent] (lapse : β → β)
    (h : LeaseTable (fun a => (d.get? a).map lease) events)
    (hsilent : ∀ b, silent b → (lease b).2 = false)
    (hlapse : ∀ b, lease (lapse b) = ((lease b).1, true)) {holders : List α}
    (hholders : ∀ a, a ∈ holders ↔ ∃ b, d.get? a = some b ∧ silent b) :
    LeaseTable
      (fun a => ((d.mapValues fun _ b => if silent b then lapse b else b).get? a).map lease)
      (events ++ [.lapsed holders]) := by
  refine h.swept holders (fun a ha => ?_) fun a => ?_
  · obtain ⟨b, hget, hb⟩ := (hholders a).mp ha
    exact ⟨(lease b).1, by rw [hget, Option.map_some, ← hsilent b hb]⟩
  · rw [Dict.get?_mapValues]
    cases hget : d.get? a with
    | none => split <;> rfl
    | some b =>
      have hiff : a ∈ holders ↔ silent b := by
        rw [hholders, hget]
        exact ⟨fun ⟨b', heq, hb'⟩ => Option.some.inj heq ▸ hb', fun hb => ⟨b, rfl, hb⟩⟩
      by_cases hb : silent b
      · rw [if_pos (hiff.mpr hb)]
        simp [hb, hlapse]
      · rw [if_neg (hiff.not.mpr hb)]
        simp [hb]

end LeaseTable

end Relay
