import Mathlib.Algebra.Order.Ring.Int
import Mathlib.Order.Bounds.Basic
import Relay.Errors
import Relay.Lib.Largest
import Relay.Lib.Since

/-!
# Count-min sketches

A sketch counts keys without storing them. It has some rows of cells; a key has one cell in every
row, and adding it raises all of these. Other keys have cells there too, so a cell may count more
than the key. The estimate is the least of its cells: it may be too high, when in every row some
other key shares the cell, but never too low.

The hash is a parameter.

## Scope

The report is left out, which only states the sizes of the sketch.

## Main definitions

* `CountMinSketch`, with `add`, `estimate` and `isHeavyHitter`
* `countMinSketch`: the sketch as a component
* `countOf`: how often a key was added, and `cellTotal`: what was added to a cell

## Main results

* `countMinSketch_answers`: what every call of a run answers
-/

namespace Relay

/-- The sketch. -/
structure CountMinSketch where
  rows : ℕ
  cols : ℕ
  grid : List (List ℤ)
  rows_pos : 1 ≤ rows
  cols_pos : 1 ≤ cols

/-- The least of some numbers. -/
def leastOf (first : ℤ) (rest : List ℤ) : ℤ :=
  Largest.firstLargest (fun n => -n) first rest

theorem leastOf_isLeast (first : ℤ) (rest : List ℤ) :
    IsLeast {n | n ∈ first :: rest} (leastOf first rest) := by
  obtain ⟨hmem, hle⟩ := Largest.firstLargest_spec (fun n : ℤ => -n) first rest
  exact ⟨hmem, fun n hn => neg_le_neg_iff.mp (hle n hn)⟩

namespace CountMinSketch

variable (hash : String → ℤ)

/-- The column of a key in a row. -/
def column (cols : ℕ) (r : ℕ) (key : String) : ℕ := (hash s!"{r}:{key}" % 2 ^ 31 % cols).toNat

/-- `_positions`. -/
def positions (sketch : CountMinSketch) (key : String) : List ℕ :=
  (List.range sketch.rows).map fun r => column hash sketch.cols r key

/-- The loop of `add`: one cell of every row is raised. -/
def raise (count : ℤ) : List (List ℤ) → List ℕ → List (List ℤ)
  | row :: grid, pos :: positions => row.modify pos (· + count) :: raise count grid positions
  | grid, _ => grid

/-- `add`. -/
def add (sketch : CountMinSketch) (key : String) (count : ℤ) :
    Except RelayError Unit × CountMinSketch :=
  if count < 1 then (.error (.invalid "count must be positive"), sketch)
  else (.ok (), { sketch with grid := raise count sketch.grid (sketch.positions hash key) })

/-- `estimate`. -/
def estimate (sketch : CountMinSketch) (key : String) : ℤ :=
  match List.zipWith (fun row pos => row.getD pos 0) sketch.grid (sketch.positions hash key) with
  | [] => 0
  | first :: rest => leastOf first rest

/-- `is_heavy_hitter`. -/
def isHeavyHitter (sketch : CountMinSketch) (key : String) (threshold : ℤ) : Bool :=
  threshold ≤ sketch.estimate hash key

end CountMinSketch

/-- What is asked of the sketch. -/
inductive SketchCall where
  | add (key : String) (count : ℤ)
  | estimate (key : String)
  | isHeavyHitter (key : String) (threshold : ℤ)
  deriving DecidableEq

/-- What the sketch answers. -/
inductive SketchAnswer where
  | add (answer : Except RelayError Unit)
  | estimate (count : ℤ)
  | isHeavyHitter (answer : Bool)

/-- The sketch as a component. -/
def countMinSketch (hash : String → ℤ) : Machine CountMinSketch SketchCall SketchAnswer where
  step sketch
    | .add key count => (.add (sketch.add hash key count).1, (sketch.add hash key count).2)
    | .estimate key => (.estimate (sketch.estimate hash key), sketch)
    | .isHeavyHitter key threshold =>
      (.isHeavyHitter (sketch.isHeavyHitter hash key threshold), sketch)

/-! ## What the calls say -/

/-- The key that is added, and how often. -/
def sketchAdd : SketchCall × SketchAnswer → Option (String × ℤ)
  | (.add key count, _) => if count < 1 then none else some (key, count)
  | _ => none

/-- The keys that were added. -/
def sketchAdds (past : List (SketchCall × SketchAnswer)) : List (String × ℤ) :=
  past.filterMap sketchAdd

/-- How often a key was added. -/
def countOf (key : String) (adds : List (String × ℤ)) : ℤ :=
  (adds.map fun a => if a.1 = key then a.2 else 0).sum

/-- What was added to a cell. -/
def cellTotal (hash : String → ℤ) (cols r pos : ℕ) (adds : List (String × ℤ)) : ℤ :=
  (adds.map fun a => if CountMinSketch.column hash cols r a.1 = pos then a.2 else 0).sum

/-- Another key that was added shares the cell of this one in the row. -/
def Shared (hash : String → ℤ) (cols r : ℕ) (key : String) (adds : List (String × ℤ)) : Prop :=
  ∃ a ∈ adds, a.1 ≠ key ∧
    CountMinSketch.column hash cols r a.1 = CountMinSketch.column hash cols r key

/-- The number is the least of what was added to the cells of the key. So it is not below what was
added for the key, and it is just that unless the key shares its cell in every row. -/
def Estimates (hash : String → ℤ) (rows cols : ℕ) (key : String) (adds : List (String × ℤ))
    (n : ℤ) : Prop :=
  IsLeast {n | ∃ r < rows,
      n = cellTotal hash cols r (CountMinSketch.column hash cols r key) adds} n ∧
    countOf key adds ≤ n ∧
    (n = countOf key adds ↔ ∃ r < rows, ¬ Shared hash cols r key adds)

/-- What is answered after some events. -/
def SketchAnswers (hash : String → ℤ) (rows cols : ℕ) (past : List (SketchCall × SketchAnswer)) :
    SketchCall × SketchAnswer → Prop
  | (.add _ count, answer) =>
    answer = .add (if count < 1 then .error (.invalid "count must be positive") else .ok ())
  | (.estimate key, answer) =>
    ∃ n, answer = .estimate n ∧ Estimates hash rows cols key (sketchAdds past) n
  | (.isHeavyHitter key threshold, answer) =>
    ∃ n, answer = .isHeavyHitter (decide (threshold ≤ n)) ∧
      Estimates hash rows cols key (sketchAdds past) n

/-! ## Cells -/

section Cells

variable {hash : String → ℤ} {cols r pos : ℕ} {key : String} {adds : List (String × ℤ)}

theorem cellTotal_append_singleton (a : String × ℤ) :
    cellTotal hash cols r pos (adds ++ [a]) = cellTotal hash cols r pos adds +
      if CountMinSketch.column hash cols r a.1 = pos then a.2 else 0 := by
  rw [cellTotal, List.map_append, List.sum_append, ← cellTotal]
  exact congrArg (cellTotal hash cols r pos adds + ·) (Int.add_zero _)

/-- A cell of the key counts the key, and what shares the cell. -/
theorem countOf_le_cellTotal (hadds : ∀ a ∈ adds, 1 ≤ a.2) :
    countOf key adds ≤ cellTotal hash cols r (CountMinSketch.column hash cols r key) adds ∧
      (cellTotal hash cols r (CountMinSketch.column hash cols r key) adds = countOf key adds ↔
        ¬ Shared hash cols r key adds) := by
  induction adds with
  | nil => exact ⟨le_rfl, iff_of_true rfl fun ⟨a, ha, _⟩ => List.not_mem_nil ha⟩
  | cons a adds ih =>
    obtain ⟨ha, hadds⟩ := List.forall_mem_cons.mp hadds
    obtain ⟨hle, hiff⟩ := ih hadds
    have hcount : countOf key (a :: adds) = (if a.1 = key then a.2 else 0) + countOf key adds := rfl
    have htotal : cellTotal hash cols r (CountMinSketch.column hash cols r key) (a :: adds) =
        (if CountMinSketch.column hash cols r a.1 = CountMinSketch.column hash cols r key
          then a.2 else 0) +
          cellTotal hash cols r (CountMinSketch.column hash cols r key) adds := rfl
    have hshared : Shared hash cols r key (a :: adds) ↔
        (a.1 ≠ key ∧
          CountMinSketch.column hash cols r a.1 = CountMinSketch.column hash cols r key) ∨
          Shared hash cols r key adds :=
      List.exists_mem_cons_iff ..
    rw [hcount, htotal, hshared]
    by_cases hkey : a.1 = key
    · have hcolumn :
          CountMinSketch.column hash cols r a.1 = CountMinSketch.column hash cols r key := by
        rw [hkey]
      rw [if_pos hkey, if_pos hcolumn, or_iff_right fun h => h.1 hkey, ← hiff]
      omega
    · by_cases hcolumn :
          CountMinSketch.column hash cols r a.1 = CountMinSketch.column hash cols r key
      · rw [if_neg hkey, if_pos hcolumn]
        refine ⟨by omega, iff_of_false (fun heq => ?_) (not_not.mpr (Or.inl ⟨hkey, hcolumn⟩))⟩
        omega
      · rw [if_neg hkey, if_neg hcolumn, or_iff_right fun h => hcolumn h.2, ← hiff]
        omega

/-- The cells of all rows, as long as they are told by a function of the row. -/
theorem raise_map (count : ℤ) (cells : ℕ → List ℤ) (columns : ℕ → ℕ) (rs : List ℕ) :
    CountMinSketch.raise count (rs.map cells) (rs.map columns) =
      rs.map fun r => (cells r).modify (columns r) (· + count) := by
  induction rs with
  | nil => rfl
  | cons r rs ih => rw [List.map_cons, List.map_cons, CountMinSketch.raise, ih, List.map_cons]

theorem modify_map_range (count : ℤ) (cell : ℕ → ℤ) (cols pos : ℕ) :
    ((List.range cols).map cell).modify pos (· + count) =
      (List.range cols).map fun p => cell p + if pos = p then count else 0 := by
  refine List.ext_getElem? fun p => ?_
  rw [List.getElem?_modify, List.getElem?_map, List.getElem?_map]
  rcases Nat.lt_or_ge p cols with hp | hp
  · rw [List.getElem?_range hp]
    by_cases hpos : pos = p
    · simp [hpos]
    · simp [hpos]
  · rw [List.getElem?_eq_none (List.length_range.trans_le hp)]
    rfl

/-! ## Every run -/

end Cells

section Runs

variable {hash : String → ℤ} {rows cols : ℕ} {sketch : CountMinSketch} {adds : List (String × ℤ)}
  {key : String}

/-- The grid that has what was added in its cells. -/
def gridOf (hash : String → ℤ) (rows cols : ℕ) (adds : List (String × ℤ)) : List (List ℤ) :=
  (List.range rows).map fun r => (List.range cols).map fun pos => cellTotal hash cols r pos adds

/-- The sketch has what was added in its cells. -/
structure Sketches (hash : String → ℤ) (rows cols : ℕ) (adds : List (String × ℤ))
    (sketch : CountMinSketch) : Prop where
  rows_eq : sketch.rows = rows
  cols_eq : sketch.cols = cols
  grid_eq : sketch.grid = gridOf hash rows cols adds
  counts : ∀ a ∈ adds, 1 ≤ a.2

theorem Sketches.add (h : Sketches hash rows cols adds sketch) {count : ℤ} (hcount : 1 ≤ count)
    (key : String) :
    Sketches hash rows cols (adds ++ [(key, count)]) (sketch.add hash key count).2 := by
  rw [CountMinSketch.add, if_neg (not_lt.mpr hcount)]
  refine ⟨h.rows_eq, h.cols_eq, ?_, forall_mem_append_singleton.mpr ⟨h.counts, hcount⟩⟩
  dsimp only
  rw [CountMinSketch.positions, h.rows_eq, h.cols_eq, h.grid_eq, gridOf, raise_map, gridOf]
  refine List.map_congr_left fun r _ => ?_
  rw [modify_map_range]
  refine List.map_congr_left fun pos _ => ?_
  rw [cellTotal_append_singleton]

theorem column_lt (hcols : 1 ≤ cols) (r : ℕ) (key : String) :
    CountMinSketch.column hash cols r key < cols := by
  rw [CountMinSketch.column]
  have hlt := Int.emod_lt_of_pos (hash s!"{r}:{key}" % 2 ^ 31) (Int.natCast_pos.mpr hcols)
  omega

/-- The cells of a key. -/
theorem Sketches.estimate_eq (h : Sketches hash rows cols adds sketch) (key : String) :
    sketch.estimate hash key =
      match (List.range rows).map fun r =>
        cellTotal hash cols r (CountMinSketch.column hash cols r key) adds with
      | [] => 0
      | first :: rest => leastOf first rest := by
  have hcols : 1 ≤ cols := h.cols_eq ▸ sketch.cols_pos
  have hcells : List.zipWith (fun row pos => row.getD pos 0) sketch.grid
      (sketch.positions hash key) = (List.range rows).map fun r =>
        cellTotal hash cols r (CountMinSketch.column hash cols r key) adds := by
    rw [CountMinSketch.positions, h.rows_eq, h.cols_eq, h.grid_eq, gridOf, List.zipWith_map,
      List.zipWith_self]
    refine List.map_congr_left fun r _ => ?_
    rw [List.getD_eq_getElem?_getD, List.getElem?_map,
      List.getElem?_range (column_lt hcols r key)]
    rfl
  rw [CountMinSketch.estimate, hcells]

theorem Sketches.estimates (h : Sketches hash rows cols adds sketch) (key : String) :
    Estimates hash rows cols key adds (sketch.estimate hash key) := by
  have hrows : 1 ≤ rows := h.rows_eq ▸ sketch.rows_pos
  have hleast : IsLeast {n | ∃ r < rows,
      n = cellTotal hash cols r (CountMinSketch.column hash cols r key) adds}
      (sketch.estimate hash key) := by
    have hset : {n | ∃ r < rows,
        n = cellTotal hash cols r (CountMinSketch.column hash cols r key) adds} =
        {n | n ∈ (List.range rows).map fun r =>
          cellTotal hash cols r (CountMinSketch.column hash cols r key) adds} := by
      ext n
      simp [eq_comm]
    rw [h.estimate_eq, hset]
    cases hcells : (List.range rows).map fun r =>
        cellTotal hash cols r (CountMinSketch.column hash cols r key) adds with
    | nil =>
      rw [List.map_eq_nil_iff, List.range_eq_nil] at hcells
      omega
    | cons first rest => exact leastOf_isLeast first rest
  refine ⟨hleast, ?_, ?_⟩
  · obtain ⟨r, -, heq⟩ := hleast.1
    rw [heq]
    exact (countOf_le_cellTotal h.counts).1
  · constructor
    · intro heq
      obtain ⟨r, hr, hcell⟩ := hleast.1
      exact ⟨r, hr, (countOf_le_cellTotal h.counts).2.mp (hcell ▸ heq)⟩
    · rintro ⟨r, hr, hshared⟩
      obtain ⟨r', -, heq⟩ := hleast.1
      refine le_antisymm ?_ (heq ▸ (countOf_le_cellTotal h.counts).1)
      rw [← (countOf_le_cellTotal h.counts).2.mpr hshared]
      exact hleast.2 ⟨r, hr, rfl⟩

/-- A sketch that nothing was added to. -/
def emptySketch (rows cols : ℕ) (hrows : 1 ≤ rows) (hcols : 1 ≤ cols) : CountMinSketch where
  rows := rows
  cols := cols
  grid := List.replicate rows (List.replicate cols 0)
  rows_pos := hrows
  cols_pos := hcols

theorem sketches_trace (hash : String → ℤ) (hrows : 1 ≤ rows) (hcols : 1 ≤ cols)
    (calls : List SketchCall) :
    Sketches hash rows cols
      (sketchAdds ((countMinSketch hash).trace (emptySketch rows cols hrows hcols) calls))
      ((countMinSketch hash).final (emptySketch rows cols hrows hcols) calls) := by
  refine Machine.trace_always
    (P := fun past sketch => Sketches hash rows cols (sketchAdds past) sketch)
    ⟨rfl, rfl, ?_, List.forall_mem_nil _⟩ (fun past sketch call h => ?_) calls
  · have hrow : (List.range cols).map (fun _ => (0 : ℤ)) = List.replicate cols 0 := by
      rw [List.map_const', List.length_range]
    have hgrid : gridOf hash rows cols [] = (List.range rows).map fun _ => List.replicate cols 0 :=
      List.map_congr_left fun r _ => hrow
    refine Eq.symm (hgrid.trans ?_)
    rw [List.map_const', List.length_range]
    rfl
  · rw [sketchAdds, List.filterMap_append, ← sketchAdds]
    cases call with
    | add key count =>
      by_cases hcount : count < 1
      · have hnone : ∀ answer, sketchAdd (.add key count, answer) = none := fun _ => if_pos hcount
        have hstep : (sketch.add hash key count).2 = sketch := by
          rw [CountMinSketch.add, if_pos hcount]
        rw [List.filterMap_cons_none (hnone _), List.filterMap_nil, List.append_nil]
        exact hstep.symm ▸ h
      · have hsome : ∀ answer, sketchAdd (.add key count, answer) = some (key, count) :=
          fun _ => if_neg hcount
        rw [List.filterMap_cons_some (hsome _), List.filterMap_nil]
        exact h.add (not_lt.mp hcount) key
    | estimate key => exact (List.append_nil (sketchAdds past)).symm ▸ h
    | isHeavyHitter key threshold => exact (List.append_nil (sketchAdds past)).symm ▸ h

/-- **Never too low.** In every run the estimate of a key is the least of what was added to its
cells. It is not below how often the key was added, and it is just that unless the key shares its
cell with another key in every row. -/
theorem countMinSketch_answers (hash : String → ℤ) (hrows : 1 ≤ rows) (hcols : 1 ≤ cols)
    (calls : List SketchCall) :
    Justified (SketchAnswers hash rows cols)
      ((countMinSketch hash).trace (emptySketch rows cols hrows hcols) calls) := by
  refine Machine.justified_trace (fun calls call => ?_) calls
  have hsketches := sketches_trace hash hrows hcols calls
  revert hsketches
  generalize (countMinSketch hash).final (emptySketch rows cols hrows hcols) calls = sketch
  generalize (countMinSketch hash).trace (emptySketch rows cols hrows hcols) calls = past
  intro hsketches
  cases call with
  | add key count =>
    refine congrArg SketchAnswer.add ?_
    rw [CountMinSketch.add]
    split <;> rfl
  | estimate key => exact ⟨_, rfl, hsketches.estimates key⟩
  | isHeavyHitter key threshold => exact ⟨_, rfl, hsketches.estimates key⟩

/-- One row of one column: all keys share the cell. -/
theorem countMinSketch_answers_shared :
    Justified (SketchAnswers (fun s => s.length) 1 1)
      ((countMinSketch fun s => s.length).trace (emptySketch 1 1 le_rfl le_rfl)
        [.add "a" 2, .add "b" 3, .estimate "a"]) :=
  countMinSketch_answers _ le_rfl le_rfl _

end Runs

end Relay
