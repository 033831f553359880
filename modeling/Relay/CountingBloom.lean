import Mathlib.Algebra.BigOperators.Group.Finset.Piecewise
import Mathlib.Algebra.Order.BigOperators.Group.Finset
import Mathlib.Algebra.Order.Ring.Int
import Mathlib.Logic.Function.Iterate
import Relay.Errors
import Relay.Lib.Machine

/-!
# Counting bloom filters

A filter counts, at each of its positions, how many times the keys that were added fall there, so
that a key can be removed again. A key is reported if all its positions are above zero. A counter
that reaches its maximum has lost track and stays there.

`remove` refuses a key that is not reported. But a key may be reported that was never added, since
its positions are also those of other keys, and removing it takes from their counts: a key that was
added is then reported as absent. This is the only way to lose one. As long as a key is removed only
while it is owed to the filter, or while all its positions are at their maximum and nothing changes
(`RemovesOwned`), every counter that is not at its maximum is the sum of what the keys are owed.

The hash is a parameter.

## Scope

The report on the counters that are saturated is left out.

## Main definitions

* `CountingBloom`, with `add`, `mightContain` and `remove`
* `CountingBloom.NoFalseNegatives`: what the filter promises

## Main results

* `CountingBloom.noFalseNegatives`: runs that keep the promise
-/

namespace Relay

/-- A filter. -/
structure CountingBloom where
  size : ℕ
  hashCount : ℕ
  maxCount : ℤ := 15
  counters : List ℤ := List.replicate size 0
  size_pos : 1 ≤ size
  hashCount_pos : 1 ≤ hashCount
  length_counters : counters.length = size

namespace CountingBloom

/-- Change the counter at each of some positions, one after the other. -/
def updateAll (f : ℤ → ℤ) (counters : List ℤ) (positions : List ℕ) : List ℤ :=
  positions.foldl (fun counters pos => counters.modify pos f) counters

theorem length_updateAll (f : ℤ → ℤ) (counters : List ℤ) (positions : List ℕ) :
    (updateAll f counters positions).length = counters.length := by
  induction positions generalizing counters with
  | nil => rfl
  | cons pos positions ih => exact (ih _).trans (List.length_modify f counters pos)

/-- `_positions`. -/
def positions (hash : String → ℤ) (bloom : CountingBloom) (key : String) : List ℕ :=
  (List.range bloom.hashCount).map fun i =>
    (hash s!"{i}:{key}" % 2 ^ 31 % bloom.size).toNat

/-- The counter at a position. -/
def counter (bloom : CountingBloom) (pos : ℕ) : ℤ :=
  bloom.counters.getD pos 0

/-- What `add` does at a position. -/
def raise (maxCount count : ℤ) : ℤ :=
  if count < maxCount then count + 1 else count

/-- What `remove` does at a position. -/
def lower (maxCount count : ℤ) : ℤ :=
  if 0 < count ∧ count < maxCount then count - 1 else count

/-- `add`. -/
def add (hash : String → ℤ) (bloom : CountingBloom) (key : String) : CountingBloom :=
  { bloom with
    counters := updateAll (raise bloom.maxCount) bloom.counters (positions hash bloom key)
    length_counters := (length_updateAll _ _ _).trans bloom.length_counters }

/-- `might_contain`. -/
def mightContain (hash : String → ℤ) (bloom : CountingBloom) (key : String) : Bool :=
  (positions hash bloom key).all fun pos => 0 < bloom.counter pos

/-- `remove`. -/
def remove (hash : String → ℤ) (bloom : CountingBloom) (key : String) :
    Except RelayError Unit × CountingBloom :=
  if ¬ mightContain hash bloom key then
    (.error (.invalid (s!"'{key}' is not present; removing it would decrement counters "
      ++ "other elements set, corrupting them into false negatives")), bloom)
  else
    (.ok (), { bloom with
      counters := updateAll (lower bloom.maxCount) bloom.counters (positions hash bloom key)
      length_counters := (length_updateAll _ _ _).trans bloom.length_counters })

end CountingBloom

/-! ## Runs -/

/-- A call that changes a filter. -/
inductive CountingBloomCall where
  | add (key : String)
  | remove (key : String)
  deriving DecidableEq

/-- What a call answers. -/
inductive CountingBloomAnswer where
  | added
  | removed (answer : Except RelayError Unit)

/-- The filter as a component. -/
def countingBloom (hash : String → ℤ) :
    Machine CountingBloom CountingBloomCall CountingBloomAnswer where
  step bloom
    | .add key => (.added, bloom.add hash key)
    | .remove key => (bloom.remove hash key).map .removed id

/-- The key of a call. -/
def CountingBloomCall.key : CountingBloomCall → String
  | .add key => key
  | .remove key => key

/-- The key that a call added. -/
def addedKey : CountingBloomCall × CountingBloomAnswer → Option String
  | (.add key, _) => some key
  | _ => none

/-- The key that a call removed, unless it was refused. -/
def removedKey : CountingBloomCall × CountingBloomAnswer → Option String
  | (.remove key, .removed (.ok ())) => some key
  | _ => none

namespace CountingBloom

/-- A filter of zeros. -/
def init (size hashCount : ℕ) (maxCount : ℤ) (hsize : 1 ≤ size) (hhash : 1 ≤ hashCount) :
    CountingBloom where
  size := size
  hashCount := hashCount
  maxCount := maxCount
  counters := List.replicate size 0
  size_pos := hsize
  hashCount_pos := hhash
  length_counters := List.length_replicate

/-- How many times a key was added in a run. -/
def adds (hash : String → ℤ) (bloom : CountingBloom) (calls : List CountingBloomCall)
    (key : String) : ℕ :=
  (((countingBloom hash).trace bloom calls).filterMap addedKey).count key

/-- How many times a key was removed in a run, refused removes left out. -/
def removes (hash : String → ℤ) (bloom : CountingBloom) (calls : List CountingBloomCall)
    (key : String) : ℕ :=
  (((countingBloom hash).trace bloom calls).filterMap removedKey).count key

/-- All along the run, a key whose adds outnumber its removes is reported. -/
def NoFalseNegatives (hash : String → ℤ) (bloom : CountingBloom)
    (calls : List CountingBloomCall) : Prop :=
  ∀ past, past <+: calls → ∀ key, removes hash bloom past key < adds hash bloom past key →
    mightContain hash ((countingBloom hash).final bloom past) key

/-- All counters of a key have reached the maximum. -/
def Saturated (hash : String → ℤ) (bloom : CountingBloom) (key : String) : Prop :=
  ∀ pos ∈ positions hash bloom key, bloom.maxCount ≤ bloom.counter pos

/-- A key that is reported is removed only while its adds outnumber its removes, or while all its
counters have reached the maximum. -/
def RemovesOwned (hash : String → ℤ) (bloom : CountingBloom) (calls : List CountingBloomCall) :
    Prop :=
  ∀ past key future, calls = past ++ .remove key :: future →
    mightContain hash ((countingBloom hash).final bloom past) key →
    removes hash bloom past key < adds hash bloom past key ∨
      Saturated hash ((countingBloom hash).final bloom past) key

variable {hash : String → ℤ} {bloom : CountingBloom}

/-! ## Counters -/

theorem getD_modify {counters : List ℤ} {pos p : ℕ} (f : ℤ → ℤ) (hp : p < counters.length) :
    (counters.modify pos f).getD p 0 =
      if pos = p then f (counters.getD p 0) else counters.getD p 0 := by
  rw [List.getD_eq_getElem?_getD, List.getD_eq_getElem?_getD, List.getElem?_modify,
    List.getElem?_eq_getElem hp]
  split <;> rfl

/-- Each counter is changed as many times as its position comes up. -/
theorem getD_updateAll (f : ℤ → ℤ) (counters : List ℤ) (positions : List ℕ) {p : ℕ}
    (hp : p < counters.length) :
    (updateAll f counters positions).getD p 0 = f^[positions.count p] (counters.getD p 0) := by
  induction positions generalizing counters with
  | nil => rfl
  | cons pos positions ih =>
    have hlen : p < (counters.modify pos f).length := by rwa [List.length_modify]
    rw [show updateAll f counters (pos :: positions) =
      updateAll f (counters.modify pos f) positions from rfl, ih _ hlen, getD_modify f hp,
      List.count_cons]
    by_cases hpos : pos = p
    · rw [if_pos hpos, hpos, beq_self_eq_true, if_pos rfl, Function.iterate_succ_apply]
    · rw [if_neg hpos, beq_false_of_ne hpos, if_neg Bool.false_ne_true, Nat.add_zero]

/-- Raised a number of times, a counter stops at the maximum. -/
theorem iterate_raise {maxCount count : ℤ} (h : count ≤ maxCount) (n : ℕ) :
    (raise maxCount)^[n] count = min (count + n) maxCount := by
  induction n with
  | zero =>
    rw [Nat.cast_zero, add_zero, min_eq_left h]
    rfl
  | succ n ih =>
    rw [Function.iterate_succ_apply', ih, raise]
    push_cast
    split <;> omega

/-- A counter at its maximum is not lowered. -/
theorem iterate_lower_self (maxCount : ℤ) (n : ℕ) :
    (lower maxCount)^[n] maxCount = maxCount := by
  have hfixed : lower maxCount maxCount = maxCount := if_neg fun h => lt_irrefl _ h.2
  exact Function.iterate_fixed hfixed n

/-- Any other counter is lowered as often as it counts. -/
theorem iterate_lower {maxCount count : ℤ} (h : count < maxCount) {n : ℕ} (hn : n ≤ count) :
    (lower maxCount)^[n] count = count - n := by
  induction n with
  | zero => exact (sub_zero count).symm
  | succ n ih =>
    push_cast at hn
    rw [Function.iterate_succ_apply', ih (by omega), lower, if_pos (by omega)]
    push_cast
    omega

/-- A position is one of the filter. -/
theorem lt_size_of_mem_positions {key : String} {p : ℕ} (h : p ∈ positions hash bloom key) :
    p < bloom.size := by
  obtain ⟨i, -, rfl⟩ := List.mem_map.mp h
  have hsize : (0 : ℤ) < bloom.size := Int.ofNat_lt.mpr bloom.size_pos
  have hlt := Int.emod_lt_of_pos (hash s!"{i}:{key}" % 2 ^ 31) hsize
  have hnonneg := Int.emod_nonneg (hash s!"{i}:{key}" % 2 ^ 31) hsize.ne'
  omega

theorem counter_add (hash : String → ℤ) (bloom : CountingBloom) (key : String) {p : ℕ}
    (hp : p < bloom.size) (hle : bloom.counter p ≤ bloom.maxCount) :
    (bloom.add hash key).counter p =
      min (bloom.counter p + (positions hash bloom key).count p) bloom.maxCount := by
  rw [← iterate_raise hle]
  exact getD_updateAll _ _ _ (bloom.length_counters.symm ▸ hp)

theorem remove_eq (hash : String → ℤ) (bloom : CountingBloom) (key : String) :
    (¬ mightContain hash bloom key ∧ ∃ error, bloom.remove hash key = (.error error, bloom)) ∨
      mightContain hash bloom key ∧ ∃ next : CountingBloom,
        bloom.remove hash key = (.ok (), next) ∧
        (next.size = bloom.size ∧ next.hashCount = bloom.hashCount ∧
          next.maxCount = bloom.maxCount) ∧
        ∀ p, p < bloom.size → next.counter p =
          (lower bloom.maxCount)^[(positions hash bloom key).count p] (bloom.counter p) := by
  rw [remove]
  split
  · next hnot => exact .inl ⟨hnot, _, rfl⟩
  · next hcontains =>
    refine .inr ⟨not_not.mp hcontains, _, rfl, ⟨rfl, rfl, rfl⟩, fun p hp => ?_⟩
    exact getD_updateAll _ _ _ (bloom.length_counters.symm ▸ hp)

/-! ## What keys are owed -/

/-- What the counters of a filter have to do with what each key is owed: its adds less its removes.
A counter below the maximum is the sum of it, and a key that is owed less than nothing is only at
positions that have reached the maximum. -/
structure Books (hash : String → ℤ) (bloom : CountingBloom) (keys : Finset String)
    (owed : String → ℤ) : Prop where
  le : ∀ p < bloom.size, bloom.counter p ≤ bloom.maxCount
  counter : ∀ p < bloom.size, bloom.counter p < bloom.maxCount →
    bloom.counter p = ∑ key ∈ keys, owed key * (positions hash bloom key).count p
  saturated : ∀ key, owed key < 0 → Saturated hash bloom key

variable {keys : Finset String} {owed : String → ℤ}

/-- A change of what one key is owed changes the sum by as much. -/
theorem sum_owed_add {key : String} (hkey : key ∈ keys) (d : ℤ) (m : String → ℤ) :
    ∑ k ∈ keys, (owed k + if k = key then d else 0) * m k =
      ∑ k ∈ keys, owed k * m k + d * m key := by
  simp only [add_mul, Finset.sum_add_distrib, ite_mul, zero_mul, Finset.sum_ite_eq', hkey,
    if_true]

/-- Below the maximum, a counter is no less than what each key is owed there. -/
theorem Books.le_counter (h : Books hash bloom keys owed) {p : ℕ} (hp : p < bloom.size)
    (hlt : bloom.counter p < bloom.maxCount) {key : String} (hkey : key ∈ keys) :
    owed key * (positions hash bloom key).count p ≤ bloom.counter p := by
  rw [h.counter p hp hlt]
  refine Finset.single_le_sum (f := fun k => owed k * ((positions hash bloom k).count p : ℤ))
    (fun k _ => ?_) hkey
  rcases lt_or_ge (owed k) 0 with hneg | hnonneg
  · have hnot : p ∉ positions hash bloom k :=
      fun hmem => absurd hlt (not_lt.mpr (h.saturated k hneg p hmem))
    rw [List.count_eq_zero.mpr hnot, Nat.cast_zero, mul_zero]
  · exact mul_nonneg hnonneg (Int.natCast_nonneg _)

/-- **A key is added.** -/
theorem Books.add (h : Books hash bloom keys owed) {key : String} (hkey : key ∈ keys) :
    Books hash (bloom.add hash key) keys fun k => owed k + if k = key then 1 else 0 := by
  have hpositions : positions hash (bloom.add hash key) = positions hash bloom := rfl
  refine ⟨fun p hp => ?_, fun p hp hlt => ?_, fun k hk p hmem => ?_⟩
  · rw [counter_add hash bloom key hp (h.le p hp)]
    exact min_le_right _ _
  · rw [counter_add hash bloom key hp (h.le p hp)] at hlt ⊢
    have hbelow : bloom.counter p + (positions hash bloom key).count p < bloom.maxCount :=
      (min_lt_iff.mp hlt).resolve_right (lt_irrefl _)
    rw [min_eq_left hbelow.le, hpositions]
    refine Eq.trans ?_ (sum_owed_add hkey 1 _).symm
    rw [one_mul, ← h.counter p hp (by omega)]
  · have hneg : owed k < 0 := by
      split at hk <;> omega
    have hp := lt_size_of_mem_positions hmem
    have hsat := h.saturated k hneg p hmem
    rw [counter_add hash bloom key hp (h.le p hp)]
    exact le_min (hsat.trans (by omega)) le_rfl

/-- Removing a key that is owed to the filter, or whose counters are all at the maximum, takes all
of it from every counter below the maximum. -/
theorem Books.iterate_lower (h : Books hash bloom keys owed) {key : String} (hkey : key ∈ keys)
    (howed : 0 < owed key ∨ Saturated hash bloom key) {p : ℕ} (hp : p < bloom.size) :
    (lower bloom.maxCount)^[(positions hash bloom key).count p] (bloom.counter p) =
      if bloom.counter p < bloom.maxCount then
        bloom.counter p - (positions hash bloom key).count p
      else bloom.maxCount := by
  split
  · next hlt =>
    refine CountingBloom.iterate_lower hlt ?_
    have hle := h.le_counter hp hlt hkey
    rcases howed with hpos | hsat
    · exact le_trans (le_mul_of_one_le_left (Int.natCast_nonneg _) hpos) hle
    · have hnot : p ∉ positions hash bloom key :=
        fun hmem => absurd hlt (not_lt.mpr (hsat p hmem))
      rw [List.count_eq_zero.mpr hnot, Nat.cast_zero, mul_zero] at hle
      rw [List.count_eq_zero.mpr hnot]
      exact hle
  · next hge => rw [le_antisymm (h.le p hp) (not_lt.mp hge), iterate_lower_self]

/-- **A key is removed** that is owed to the filter, or that no counter is lowered for. -/
theorem Books.remove (h : Books hash bloom keys owed) {key : String} (hkey : key ∈ keys)
    {next : CountingBloom} (howed : 0 < owed key ∨ Saturated hash bloom key)
    (hsame : next.size = bloom.size ∧ next.hashCount = bloom.hashCount ∧
      next.maxCount = bloom.maxCount)
    (hnext : ∀ p, p < bloom.size → next.counter p =
      (lower bloom.maxCount)^[(positions hash bloom key).count p] (bloom.counter p)) :
    Books hash next keys fun k => owed k + if k = key then -1 else 0 := by
  obtain ⟨hsize, hhash, hmax⟩ := hsame
  have hpositions : positions hash next = positions hash bloom := by
    funext k
    rw [positions, positions, hsize, hhash]
  have hcounter : ∀ p < bloom.size, next.counter p =
      if bloom.counter p < bloom.maxCount then
        bloom.counter p - (positions hash bloom key).count p
      else bloom.maxCount :=
    fun p hp => (hnext p hp).trans (h.iterate_lower hkey howed hp)
  refine ⟨fun p hp => ?_, fun p hp hlt => ?_, fun k hk p hmem => ?_⟩
  · rw [hsize] at hp
    rw [hmax, hcounter p hp]
    split <;> omega
  · rw [hsize] at hp
    rw [hmax, hcounter p hp] at hlt
    rw [hcounter p hp, hpositions]
    split at hlt
    · next hbelow =>
      rw [if_pos hbelow]
      refine Eq.trans ?_ (sum_owed_add hkey (-1) _).symm
      rw [neg_one_mul, ← sub_eq_add_neg, ← h.counter p hp hbelow]
    · exact absurd hlt (lt_irrefl _)
  · rw [hpositions] at hmem
    have hsat : Saturated hash bloom k := by
      by_cases hk' : k = key
      · rw [if_pos hk'] at hk
        subst hk'
        exact howed.resolve_left (by omega)
      · rw [if_neg hk', add_zero] at hk
        exact h.saturated k hk
    rw [hmax, hcounter p (lt_size_of_mem_positions hmem), if_neg (not_lt.mpr (hsat p hmem))]

/-- A key that is owed to the filter is reported. -/
theorem Books.mightContain (h : Books hash bloom keys owed) (hmax : 1 ≤ bloom.maxCount)
    {key : String} (hkey : key ∈ keys) (howed : 0 < owed key) :
    bloom.mightContain hash key = true := by
  refine List.all_eq_true.mpr fun p hp => decide_eq_true ?_
  rcases lt_or_ge (bloom.counter p) bloom.maxCount with hlt | hge
  · have hcount : (1 : ℤ) ≤ (positions hash bloom key).count p :=
      Int.ofNat_le.mpr (List.count_pos_iff.mpr hp)
    refine lt_of_lt_of_le ?_ (h.le_counter (lt_size_of_mem_positions hp) hlt hkey)
    exact mul_pos howed hcount
  · exact lt_of_lt_of_le hmax hge

/-! ### Runs of the filter -/

/-- What a key is owed after a run. -/
def owedAfter (hash : String → ℤ) (bloom : CountingBloom) (calls : List CountingBloomCall)
    (key : String) : ℤ :=
  adds hash bloom calls key - removes hash bloom calls key

theorem owedAfter_pos_iff {calls : List CountingBloomCall} {key : String} :
    0 < owedAfter hash bloom calls key ↔
      removes hash bloom calls key < adds hash bloom calls key := by
  rw [owedAfter]
  omega

theorem owedAfter_append_singleton (calls : List CountingBloomCall) (call : CountingBloomCall)
    {answer : CountingBloomAnswer}
    (hanswer : ((countingBloom hash).step ((countingBloom hash).final bloom calls) call).1 = answer)
    (k : String) : owedAfter hash bloom (calls ++ [call]) k = owedAfter hash bloom calls k +
      (((addedKey (call, answer)).toList.count k : ℤ) -
        (removedKey (call, answer)).toList.count k) := by
  rw [owedAfter, owedAfter, adds, adds, removes, removes,
    (countingBloom hash).filterMap_trace_append_singleton,
    (countingBloom hash).filterMap_trace_append_singleton, List.count_append, List.count_append,
    hanswer]
  omega

theorem count_toList_some (key k : String) :
    ((some key).toList.count k : ℤ) = if k = key then 1 else 0 := by
  rw [Option.toList_some, List.count_singleton]
  simp only [beq_iff_eq, eq_comm (a := key)]
  split <;> rfl

theorem owedAfter_add (calls : List CountingBloomCall) (key : String) :
    owedAfter hash bloom (calls ++ [.add key]) =
      fun k => owedAfter hash bloom calls k + if k = key then 1 else 0 := by
  funext k
  rw [owedAfter_append_singleton calls (.add key) rfl, ← count_toList_some]
  exact congrArg _ (sub_zero _)

theorem answer_remove {calls : List CountingBloomCall} {key : String}
    {result : Except RelayError Unit} {next : CountingBloom}
    (h : ((countingBloom hash).final bloom calls).remove hash key = (result, next)) :
    ((countingBloom hash).step ((countingBloom hash).final bloom calls) (.remove key)).1 =
      .removed result :=
  congrArg (fun x : Except RelayError Unit × CountingBloom => CountingBloomAnswer.removed x.1) h

theorem owedAfter_remove_of_error {calls : List CountingBloomCall} {key : String}
    {error : RelayError} {next : CountingBloom}
    (h : ((countingBloom hash).final bloom calls).remove hash key = (.error error, next)) :
    owedAfter hash bloom (calls ++ [.remove key]) = owedAfter hash bloom calls := by
  funext k
  rw [owedAfter_append_singleton calls (.remove key) (answer_remove h)]
  exact add_zero _

theorem owedAfter_remove_of_ok {calls : List CountingBloomCall} {key : String}
    {next : CountingBloom}
    (h : ((countingBloom hash).final bloom calls).remove hash key = (.ok (), next)) :
    owedAfter hash bloom (calls ++ [.remove key]) =
      fun k => owedAfter hash bloom calls k + if k = key then -1 else 0 := by
  funext k
  rw [owedAfter_append_singleton calls (.remove key) (answer_remove h)]
  show _ + (((([] : List String).count k : ℕ) : ℤ) - ((some key).toList.count k : ℤ)) = _
  rw [count_toList_some]
  split <;> rfl

theorem maxCount_final (calls : List CountingBloomCall) :
    ((countingBloom hash).final bloom calls).maxCount = bloom.maxCount := by
  refine Machine.final_eq_of_step maxCount (fun b call => ?_) bloom calls
  cases call with
  | add key => rfl
  | remove key =>
    show (b.remove hash key).2.maxCount = _
    rcases remove_eq hash b key with ⟨-, error, heq⟩ | ⟨-, next, heq, ⟨-, -, hmax⟩, -⟩
    · rw [heq]
    · rw [heq]
      exact hmax

theorem RemovesOwned.of_append {calls rest : List CountingBloomCall}
    (h : RemovesOwned hash bloom (calls ++ rest)) : RemovesOwned hash bloom calls := by
  intro past key future hsplit
  exact h past key (future ++ rest) (by rw [hsplit, List.append_assoc, List.cons_append])

/-- **Runs.** The books are kept as long as keys are removed that are owed to the filter. -/
theorem RemovesOwned.books {calls : List CountingBloomCall} (h : RemovesOwned hash bloom calls)
    (hinit : Books hash bloom keys fun _ => 0) (hkeys : ∀ call ∈ calls, call.key ∈ keys) :
    Books hash ((countingBloom hash).final bloom calls) keys (owedAfter hash bloom calls) := by
  induction calls using List.reverseRecOn with
  | nil => exact hinit
  | append_singleton calls call ih =>
    obtain ⟨hcalls, hkey⟩ := forall_mem_append_singleton.mp hkeys
    have hbooks := ih h.of_append hcalls
    rw [(countingBloom hash).final_append_singleton]
    cases call with
    | add key =>
      rw [owedAfter_add]
      exact hbooks.add hkey
    | remove key =>
      show Books hash (((countingBloom hash).final bloom calls).remove hash key).2 keys _
      rcases remove_eq hash ((countingBloom hash).final bloom calls) key with
        ⟨-, error, heq⟩ | ⟨hcontains, next, heq, hsame, hnext⟩
      · rw [owedAfter_remove_of_error heq, heq]
        exact hbooks
      · rw [owedAfter_remove_of_ok heq, heq]
        refine hbooks.remove hkey ?_ hsame hnext
        exact (h calls key [] rfl hcontains).imp_left owedAfter_pos_iff.mpr

theorem books_init (size hashCount : ℕ) {maxCount : ℤ} (hsize : 1 ≤ size)
    (hhash : 1 ≤ hashCount) (hmax : 1 ≤ maxCount) :
    Books hash (init size hashCount maxCount hsize hhash) keys fun _ => 0 := by
  have hzero (p : ℕ) : (init size hashCount maxCount hsize hhash).counter p = 0 := by
    rw [CountingBloom.counter, init, List.getD_eq_getElem?_getD, List.getElem?_replicate]
    split <;> rfl
  refine ⟨fun p _ => ?_, fun p _ _ => ?_, fun key hneg => absurd hneg (lt_irrefl 0)⟩
  · rw [hzero]
    exact le_trans (by decide) hmax
  · rw [hzero]
    simp only [zero_mul, Finset.sum_const_zero]

/-- **No false negatives**, in every run that removes only what is owed to the filter. -/
theorem noFalseNegatives (hash : String → ℤ) (size hashCount : ℕ) (maxCount : ℤ)
    (hsize : 1 ≤ size) (hhash : 1 ≤ hashCount) (hmax : 1 ≤ maxCount)
    {calls : List CountingBloomCall}
    (h : RemovesOwned hash (init size hashCount maxCount hsize hhash) calls) :
    NoFalseNegatives hash (init size hashCount maxCount hsize hhash) calls := by
  rintro past ⟨rest, rfl⟩ key hlt
  have hkeys : ∀ call ∈ past,
      call.key ∈ insert key (past.map CountingBloomCall.key).toFinset := fun call hcall =>
    Finset.mem_insert_of_mem (List.mem_toFinset.mpr (List.mem_map_of_mem hcall))
  have hbooks := h.of_append.books (books_init size hashCount hsize hhash hmax) hkeys
  refine hbooks.mightContain ?_ (Finset.mem_insert_self _ _) (owedAfter_pos_iff.mpr hlt)
  rw [maxCount_final]
  exact hmax

/-- A key is removed that shares its only counter with another. -/
theorem noFalseNegatives_shared :
    NoFalseNegatives (fun _ => 0) (init 1 1 15 le_rfl le_rfl)
      [.add "x", .add "y", .remove "x"] := by
  refine noFalseNegatives (fun _ => 0) 1 1 15 le_rfl le_rfl (by decide) ?_
  intro past key future hsplit _
  rcases past with _ | ⟨_, _ | ⟨_, _ | ⟨_, past⟩⟩⟩
  · simp at hsplit
  · simp at hsplit
  · simp only [List.cons_append, List.nil_append, List.cons.injEq] at hsplit
    obtain ⟨rfl, rfl, hremove, rfl⟩ := hsplit
    obtain rfl := CountingBloomCall.remove.inj hremove
    exact .inl (by decide)
  · simp at hsplit

/-- **A key is lost** when another one is removed that was never added, but is reported. -/
theorem lost_by_removing_another :
    ¬ ∀ (hash : String → ℤ) (size hashCount : ℕ) (maxCount : ℤ) (hsize : 1 ≤ size)
      (hhash : 1 ≤ hashCount), 1 ≤ maxCount → ∀ calls,
        NoFalseNegatives hash (init size hashCount maxCount hsize hhash) calls := by
  intro h
  have hreported := h (fun _ => 0) 1 1 15 le_rfl le_rfl (by decide) [.add "x", .remove "z"]
    [.add "x", .remove "z"] List.prefix_rfl "x" (by decide)
  exact absurd hreported (by decide)

end CountingBloom

end Relay
