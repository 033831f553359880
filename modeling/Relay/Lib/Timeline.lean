import Mathlib.Data.List.Pairwise
import Mathlib.Order.Lattice
import Relay.Lib.Machine

/-!
# Timelines

A timeline is a list of markers, each a label and the point from which the label holds. Labels
increase strictly along the list and starting points never decrease, so the label at a point is
that of the last marker at or before it, and a marker whose successor starts at the same point
labels nothing.

The question here is when two timelines agree below a cut. Comparing them point by point is
comparing the markers that do label something: `labelAt_eq_iff` says that the timelines agree on
a down-closed set of points exactly when, of the markers starting in that set, they have the same
ones with a non-empty stretch.

## Main definitions

* `Ordered`: the order conditions on a list of markers
* `markerAt`, `labelAt`: what holds at a point
* `Begins`: a marker that labels at least the point it starts at
* `Undisturbed`: nothing outside a common beginning shows below a cut

## Main results

* `markerAt_eq_some_iff`: the marker at a point, without reference to the order of the list
* `labelAt_eq_iff`, `labelAt_eq_iff_mem`: agreement of two timelines on a down-closed set
* `begins_iff_iff_undisturbed`: the same for timelines with a common beginning
-/

namespace Relay

namespace Timeline

variable {ε τ : Type*} [LinearOrder τ]

/-- The last marker at or before a point. -/
def markerAt (h : List (ε × τ)) (o : τ) : Option (ε × τ) :=
  (h.filter fun m => decide (m.2 ≤ o)).getLast?

/-- The label at a point, if any marker starts at or before it. -/
def labelAt (h : List (ε × τ)) (o : τ) : Option ε := (markerAt h o).map Prod.fst

theorem labelAt_eq_some_iff {h : List (ε × τ)} {o : τ} {e : ε} :
    labelAt h o = some e ↔ ∃ m, markerAt h o = some m ∧ m.1 = e :=
  Option.map_eq_some_iff

variable [LinearOrder ε]

/-- Labels increase strictly, and starting points do not decrease. -/
def Ordered (h : List (ε × τ)) : Prop := h.Pairwise fun a b => a.1 < b.1 ∧ a.2 ≤ b.2

instance (h : List (ε × τ)) : Decidable (Ordered h) :=
  inferInstanceAs (Decidable (h.Pairwise _))

/-- The marker `m` of `h` labels at least the point it starts at: whatever comes after it starts
later. -/
def Begins (h : List (ε × τ)) (m : ε × τ) : Prop := m ∈ h ∧ ∀ n ∈ h, m.1 < n.1 → m.2 < n.2

variable {h f l : List (ε × τ)} {m n : ε × τ} {o : τ}

/-! ### Two markers of one timeline -/

theorem Ordered.trichotomy (hs : Ordered h) (hm : m ∈ h) (hn : n ∈ h) :
    m = n ∨ (m.1 < n.1 ∧ m.2 ≤ n.2) ∨ (n.1 < m.1 ∧ n.2 ≤ m.2) := by
  by_cases heq : m = n
  · exact Or.inl heq
  · have hsymm : Std.Symm fun a b : ε × τ =>
        (a.1 < b.1 ∧ a.2 ≤ b.2) ∨ (b.1 < a.1 ∧ b.2 ≤ a.2) := ⟨fun _ _ => Or.symm⟩
    have hpair : h.Pairwise fun a b => (a.1 < b.1 ∧ a.2 ≤ b.2) ∨ (b.1 < a.1 ∧ b.2 ≤ a.2) :=
      hs.imp Or.inl
    exact Or.inr (hpair.forall hm hn heq)

theorem Ordered.eq_of_fst_eq (hs : Ordered h) (hm : m ∈ h) (hn : n ∈ h) (heq : m.1 = n.1) :
    m = n := by
  rcases hs.trichotomy hm hn with hmn | ⟨hlt, -⟩ | ⟨hlt, -⟩
  · exact hmn
  · exact absurd heq hlt.ne
  · exact absurd heq.symm hlt.ne

theorem Ordered.snd_le_of_fst_le (hs : Ordered h) (hm : m ∈ h) (hn : n ∈ h) (hle : m.1 ≤ n.1) :
    m.2 ≤ n.2 := by
  rcases hs.trichotomy hm hn with rfl | ⟨-, hmn⟩ | ⟨hlt, -⟩
  · exact le_rfl
  · exact hmn
  · exact absurd hle hlt.not_ge

/-- The first of a list with increasing labels is its member with the smallest label. -/
theorem Ordered.fst_head_le (hs : Ordered h) (hhead : h.head? = some m) (hn : n ∈ h) :
    m.1 ≤ n.1 := by
  obtain ⟨rest, rfl⟩ := List.head?_eq_some_iff.mp hhead
  rcases List.mem_cons.mp hn with rfl | hn
  · exact le_rfl
  · exact ((List.pairwise_cons.mp hs).1 n hn).1.le

/-! ### The marker at a point -/

/-- The last of a list with increasing labels is its member with the largest label. -/
theorem Ordered.fst_le_getLast (hs : Ordered h) (hlast : h.getLast? = some m) (hn : n ∈ h) :
    n.1 ≤ m.1 := by
  rcases eq_or_rel_getLast hs hlast hn with rfl | ⟨hlt, -⟩
  · exact le_rfl
  · exact hlt.le

theorem markerAt_eq_some_iff (hs : Ordered h) :
    markerAt h o = some m ↔ m ∈ h ∧ m.2 ≤ o ∧ ∀ n ∈ h, m.1 < n.1 → o < n.2 := by
  have hmem : ∀ x, x ∈ h.filter (fun m => decide (m.2 ≤ o)) ↔ x ∈ h ∧ x.2 ≤ o := by simp
  have hsub : Ordered (h.filter fun m => decide (m.2 ≤ o)) := hs.filter _
  constructor
  · intro hat
    obtain ⟨hm, hle⟩ := (hmem m).mp (List.mem_of_getLast? hat)
    refine ⟨hm, hle, fun n hn hlt => ?_⟩
    by_contra hge
    exact hlt.not_ge (hsub.fst_le_getLast hat ((hmem n).mpr ⟨hn, not_lt.mp hge⟩))
  · rintro ⟨hm, hle, hlater⟩
    have hmf := (hmem m).mpr ⟨hm, hle⟩
    obtain ⟨x, hx⟩ := exists_getLast?_eq_some hmf
    obtain ⟨hxh, hxle⟩ := (hmem x).mp (List.mem_of_getLast? hx)
    rcases (hsub.fst_le_getLast hx hmf).eq_or_lt with heq | hlt
    · rw [markerAt, hx, hs.eq_of_fst_eq hm hxh heq]
    · exact absurd (hlater x hxh hlt) hxle.not_gt

/-- Where some marker has started, one is in force, and it is that marker or a later one. -/
theorem exists_markerAt (hs : Ordered h) (hm : m ∈ h) (hle : m.2 ≤ o) :
    ∃ x, markerAt h o = some x ∧ m.1 ≤ x.1 := by
  have hmf : m ∈ h.filter fun m => decide (m.2 ≤ o) := by simp [hm, hle]
  obtain ⟨x, hx⟩ := exists_getLast?_eq_some hmf
  exact ⟨x, hx, Ordered.fst_le_getLast (hs.filter _) hx hmf⟩

/-- The marker in force at a point labels something. -/
theorem begins_of_markerAt (hs : Ordered h) (hat : markerAt h o = some m) : Begins h m := by
  obtain ⟨hm, hle, hlater⟩ := (markerAt_eq_some_iff hs).mp hat
  exact ⟨hm, fun n hn hlt => hle.trans_lt (hlater n hn hlt)⟩

theorem Begins.markerAt_self (hs : Ordered h) (hb : Begins h m) : markerAt h m.2 = some m :=
  (markerAt_eq_some_iff hs).mpr ⟨hb.1, le_rfl, hb.2⟩

/-- Some marker that labels something starts where a given one does. -/
theorem exists_begins_of_mem (hs : Ordered h) (hm : m ∈ h) :
    ∃ x, Begins h x ∧ m.1 ≤ x.1 ∧ x.2 = m.2 := by
  obtain ⟨x, hat, hle⟩ := exists_markerAt hs hm le_rfl
  obtain ⟨hx, hxm, -⟩ := (markerAt_eq_some_iff hs).mp hat
  exact ⟨x, begins_of_markerAt hs hat, hle, hxm.antisymm (hs.snd_le_of_fst_le hm hx hle)⟩

/-! ### Agreement -/

/-- Agreement on a down-closed set carries the markers of one timeline over to the other. -/
theorem begins_of_labelAt_eq (hf : Ordered f) (hl : Ordered l) {P : τ → Prop}
    (hdown : ∀ a b, a ≤ b → P b → P a) (hagree : ∀ o, P o → labelAt f o = labelAt l o)
    (hP : P m.2) (hb : Begins f m) : Begins l m := by
  obtain ⟨y, hy, hym⟩ := labelAt_eq_some_iff.mp
    ((hagree m.2 hP).symm.trans (labelAt_eq_some_iff.mpr ⟨m, hb.markerAt_self hf, rfl⟩))
  obtain ⟨-, hle, -⟩ := (markerAt_eq_some_iff hl).mp hy
  have hby := begins_of_markerAt hl hy
  -- read the other timeline back where its marker starts: it cannot start any earlier
  obtain ⟨x, hx, hxy⟩ := labelAt_eq_some_iff.mp
    ((hagree y.2 (hdown _ _ hle hP)).trans (labelAt_eq_some_iff.mpr ⟨y, hby.markerAt_self hl, rfl⟩))
  obtain ⟨hxf, hxle, -⟩ := (markerAt_eq_some_iff hf).mp hx
  obtain rfl := hf.eq_of_fst_eq hxf hb.1 (hxy.trans hym)
  rwa [show y = x from Prod.ext hym (hle.antisymm hxle)] at hby

/-- A marker in force on one timeline is in force on the other, if below the cut they have the
same markers that label something. -/
theorem markerAt_of_begins_iff (hf : Ordered f) (hl : Ordered l) {P : τ → Prop}
    (hdown : ∀ a b, a ≤ b → P b → P a) (hsame : ∀ m : ε × τ, P m.2 → (Begins f m ↔ Begins l m))
    (hP : P o) (hat : markerAt f o = some m) : markerAt l o = some m := by
  obtain ⟨-, hle, hlater⟩ := (markerAt_eq_some_iff hf).mp hat
  have hml := ((hsame m (hdown _ _ hle hP)).mp (begins_of_markerAt hf hat)).1
  refine (markerAt_eq_some_iff hl).mpr ⟨hml, hle, fun n hn hlt => ?_⟩
  by_contra hge
  obtain ⟨y, hy, hny⟩ := exists_markerAt hl hn (not_lt.mp hge)
  obtain ⟨-, hyle, -⟩ := (markerAt_eq_some_iff hl).mp hy
  have hyf := (hsame y (hdown _ _ hyle hP)).mpr (begins_of_markerAt hl hy)
  exact (hlater y hyf.1 (hlt.trans_le hny)).not_ge hyle

/-- **Agreement below a cut.** Two timelines give the same label at every point of a down-closed
set exactly when the same markers label something there. -/
theorem labelAt_eq_iff (hf : Ordered f) (hl : Ordered l) {P : τ → Prop}
    (hdown : ∀ a b, a ≤ b → P b → P a) :
    (∀ o, P o → labelAt f o = labelAt l o) ↔
      ∀ m : ε × τ, P m.2 → (Begins f m ↔ Begins l m) := by
  constructor
  · intro hagree m hP
    exact ⟨begins_of_labelAt_eq hf hl hdown hagree hP,
      begins_of_labelAt_eq hl hf hdown (fun o ho => (hagree o ho).symm) hP⟩
  · intro hsame o hP
    refine congrArg (Option.map Prod.fst) (Option.ext fun m => ?_)
    exact ⟨markerAt_of_begins_iff hf hl hdown hsame hP,
      markerAt_of_begins_iff hl hf hdown (fun m hm => (hsame m hm).symm) hP⟩

/-- The same, asking only that each such marker stands in the other list: a marker that labels
something on one timeline and stands in the other labels something there as well. -/
theorem labelAt_eq_iff_mem (hf : Ordered f) (hl : Ordered l) {P : τ → Prop}
    (hdown : ∀ a b, a ≤ b → P b → P a) :
    (∀ o, P o → labelAt f o = labelAt l o) ↔
      (∀ m, Begins f m → P m.2 → m ∈ l) ∧ ∀ m, Begins l m → P m.2 → m ∈ f := by
  have hcarry : ∀ {f l : List (ε × τ)}, Ordered l → (∀ m, Begins f m → P m.2 → m ∈ l) →
      (∀ m, Begins l m → P m.2 → m ∈ f) → ∀ m, P m.2 → Begins f m → Begins l m := by
    intro f l hl hfl hlf m hP hb
    refine ⟨hfl m hb hP, fun n hn hlt => ?_⟩
    by_contra hge
    obtain ⟨y, hy, hny, hyn⟩ := exists_begins_of_mem hl hn
    have hym : y.2 ≤ m.2 := hyn ▸ not_lt.mp hge
    exact (hb.2 y (hlf y hy (hdown _ _ hym hP)) (hlt.trans_le hny)).not_ge hym
  rw [labelAt_eq_iff hf hl hdown]
  constructor
  · intro hsame
    exact ⟨fun m hb hP => ((hsame m hP).mp hb).1, fun m hb hP => ((hsame m hP).mpr hb).1⟩
  · rintro ⟨hfl, hlf⟩ m hP
    exact ⟨hcarry hl hfl hlf m hP, hcarry hf hlf hfl m hP⟩

/-! ### A common beginning

`s ++ d` is one timeline, of which the markers `s` stand in the other timeline `l` as well. Below
a cut that `l` reaches no later than it leaves the last of them, the two agree unless a marker
outside `s` gets in the way: the first marker of `d`, or a marker of `l` between those of `s`. -/

section Shared

variable {s d : List (ε × τ)} {p : ε × τ} {P : τ → Prop}

theorem fst_lt_of_mem_right (hs : Ordered (s ++ d)) (hp : p ∈ s) (hm : m ∈ d) : p.1 < m.1 :=
  ((List.pairwise_append.mp hs).2.2 p hp m hm).1

/-- The first marker of a list starts no later than the others. -/
theorem Ordered.head_snd_le (hs : Ordered d) (hn : n ∈ d.head?) (hm : m ∈ d) : n.2 ≤ m.2 := by
  cases d with
  | nil => cases hm
  | cons x d =>
    obtain rfl : x = n := by simpa using hn
    rcases List.mem_cons.mp hm with rfl | hm
    · exact le_rfl
    · exact ((List.pairwise_cons.mp hs).1 m hm).2

/-- The two ways a marker outside the common beginning shows below the cut. -/
structure Undisturbed (s d l : List (ε × τ)) (p : ε × τ) (P : τ → Prop) : Prop where
  /-- The first marker after the common beginning starts past the cut. -/
  next : ∀ x ∈ d.head?, ¬ P x.2
  /-- A marker of the other timeline between the common ones labels nothing below the cut. -/
  between : ∀ m ∈ l, m ∉ s → m.1 < p.1 → P m.2 → ∃ n ∈ l, m.1 < n.1 ∧ n.2 ≤ m.2

variable (hs : Ordered (s ++ d)) (hl : Ordered l) (hsub : ∀ m ∈ s, m ∈ l)
  (hp : s.getLast? = some p) (hdown : ∀ a b, a ≤ b → P b → P a)
  (hcut : ∀ o, P o → ∀ n ∈ l, p.1 < n.1 → o < n.2)

include hs hp hcut in
theorem undisturbed_of_begins_iff
    (hsame : ∀ m : ε × τ, P m.2 → (Begins (s ++ d) m ↔ Begins l m)) : Undisturbed s d l p P := by
  have hps : p ∈ s := List.mem_of_getLast? hp
  constructor
  case next =>
    intro x hx hPx
    have hxd : x ∈ d := List.mem_of_head? hx
    obtain ⟨y, hby, hxy, hyx⟩ := exists_begins_of_mem hs (List.mem_append_right s hxd)
    have hyl := (hsame y (hyx ▸ hPx)).mp hby
    have hlt := hcut y.2 (hyx ▸ hPx) y hyl.1 ((fst_lt_of_mem_right hs hps hxd).trans_le hxy)
    exact lt_irrefl _ hlt
  case between =>
    intro m hm hms hmp hPm
    by_contra hnone
    have hb : Begins l m := ⟨hm, fun n hn hlt => not_le.mp fun hge => hnone ⟨n, hn, hlt, hge⟩⟩
    rcases List.mem_append.mp ((hsame m hPm).mpr hb).1 with hin | hin
    · exact hms hin
    · exact hmp.not_gt (fst_lt_of_mem_right hs hps hin)

include hs hdown in
/-- Below the cut, every marker of `s ++ d` is one of `s`. -/
theorem Undisturbed.mem_left (hu : Undisturbed s d l p P) (hm : m ∈ s ++ d) (hP : P m.2) :
    m ∈ s := by
  rcases List.mem_append.mp hm with hin | hin
  · exact hin
  · obtain ⟨x, hx⟩ := exists_head?_eq_some hin
    have hle := Ordered.head_snd_le (List.pairwise_append.mp hs).2.1 hx hin
    exact absurd (hdown _ _ hle hP) (hu.next x hx)

include hl hsub hp hcut in
/-- Below the cut, every marker of `l` that labels something is one of `s`. -/
theorem Undisturbed.mem_left_of_begins (hu : Undisturbed s d l p P) (hb : Begins l m)
    (hP : P m.2) : m ∈ s := by
  have hps : p ∈ s := List.mem_of_getLast? hp
  by_contra hms
  rcases lt_trichotomy m.1 p.1 with hlt | heq | hgt
  · obtain ⟨n, hn, hmn, hle⟩ := hu.between m hb.1 hms hlt hP
    exact (hb.2 n hn hmn).not_ge hle
  · exact hms (hl.eq_of_fst_eq hb.1 (hsub p hps) heq ▸ hps)
  · exact lt_irrefl _ (hcut m.2 hP m hb.1 hgt)

include hs hl hsub hp hdown hcut in
/-- **Agreement along a common beginning.** -/
theorem begins_iff_iff_undisturbed :
    (∀ m : ε × τ, P m.2 → (Begins (s ++ d) m ↔ Begins l m)) ↔ Undisturbed s d l p P := by
  refine ⟨undisturbed_of_begins_iff hs hp hcut, fun hu m hP => ⟨fun hb => ?_, fun hb => ?_⟩⟩
  · have hml : m ∈ l := hsub m (hu.mem_left hs hdown hb.1 hP)
    refine ⟨hml, fun n hn hlt => ?_⟩
    by_contra hge
    -- the marker of `l` in force where `m` starts is common, and `m` would end before it began
    obtain ⟨y, hy, hmy, hym⟩ := exists_begins_of_mem hl hn
    have hym' : y.2 ≤ m.2 := hym ▸ not_lt.mp hge
    have hys := hu.mem_left_of_begins hl hsub hp hcut hy (hdown _ _ hym' hP)
    exact (hb.2 y (List.mem_append_left d hys) (hlt.trans_le hmy)).not_ge hym'
  · have hms := hu.mem_left_of_begins hl hsub hp hcut hb hP
    refine ⟨List.mem_append_left d hms, fun n hn hlt => ?_⟩
    by_contra hge
    have hns := hu.mem_left hs hdown hn (hdown _ _ (not_lt.mp hge) hP)
    exact hge (hb.2 n (hsub n hns) hlt)

end Shared

end Timeline

end Relay
