/-
  PrimalDual.Proofs.TestProblem.Measurements
  ──────────────────────────────────────────
  **A TEST PROBLEM IS FEASIBLE AT ITS NOISE LEVEL.**

  Three generators make a test problem, and each keeps one promise whatever
  its source draws:

      sparse         distinct positions are hit once each, in any order, so
                     the signal has as many entries as were drawn
      compressed     each column is divided by its own norm
      boundedNoise   the noise is divided by its norm and multiplied by the
                     level

  Columns and noise are numbers that are given a norm (`norm_rescaled`), and
  they have it unless all of them were drawn zero.  The signal misses the
  noisy measurements by the noise, whose norm is the level.  So it meets the
  constraint of the solver at every tolerance from the level on, and at none
  below it.
-/
import PrimalDual.Proofs.Exact.Entries
import PrimalDual.Proofs.Tensor.Axis
import PrimalDual.Proofs.TestProblem.Draws

namespace PrimalDual

namespace TestProblem

open Tensor

/-! ## §1. Sparse signals. -/

section Sparse

variable {k : ℕ} {pos : Fin k → ℕ} (v : Fin k → ℝ)

/-- Distinct positions keep their values, whatever was assigned after them. -/
theorem assigned_position (hpos : Function.Injective pos) (r : Fin k) :
    assigned ((List.ofFn pos).zip (List.ofFn v)) (pos r) = v r := by
  have hmem : ∀ j, j ∈ ((List.ofFn pos).zip (List.ofFn v)).reverse ↔ ∃ r, (pos r, v r) = j := by
    intro j
    rw [List.mem_reverse, zip_ofFn, List.mem_ofFn]
  -- The reversed list is searched, but only one pair has this position.
  unfold assigned
  cases hfind : ((List.ofFn pos).zip (List.ofFn v)).reverse.find? fun j => j.1 == pos r with
  | none =>
    have hnone := List.find?_eq_none.1 hfind _ ((hmem _).2 ⟨r, rfl⟩)
    simp at hnone
  | some j =>
    obtain ⟨r', rfl⟩ := (hmem j).1 (List.mem_of_find?_eq_some hfind)
    have hsame : pos r' = pos r := by simpa using List.find?_some hfind
    rw [hpos hsame]
    rfl

theorem assigned_elsewhere {i : ℕ} (hi : ∀ r, pos r ≠ i) :
    assigned ((List.ofFn pos).zip (List.ofFn v)) i = 0 := by
  have hnone : ((List.ofFn pos).zip (List.ofFn v)).reverse.find? (fun j => j.1 == i) = none := by
    refine List.find?_eq_none.2 fun j hj => ?_
    rw [List.mem_reverse, zip_ofFn, List.mem_ofFn] at hj
    obtain ⟨r, rfl⟩ := hj
    simpa using hi r
  unfold assigned
  rw [hnone]
  exact Control.zero_real

end Sparse

section Spikes

variable {n k : ℕ} {low high : ℝ} (d : SignedDraws n k low high)

/-- The value that was drawn for a position, or zero. -/
noncomputable def spikes (i : ℕ) : ℝ := assigned (d.positionList.zip (List.ofFn d.value)) i

theorem spikes_position (r : Fin k) : spikes d (d.positions r) = d.value r :=
  assigned_position d.value (Fin.val_injective.comp d.positions.injective) r

theorem spikes_ne_zero_iff (hlow : 0 < low) (i : ℕ) :
    spikes d i ≠ 0 ↔ ∃ r, (d.positions r : ℕ) = i := by
  constructor
  · intro hne
    by_contra hnone
    exact hne (assigned_elsewhere d.value fun r hr => hnone ⟨r, hr⟩)
  · rintro ⟨r, rfl⟩
    rw [spikes_position]
    exact d.value_ne_zero hlow r

/-- There are as many spikes as draws. -/
theorem card_spikes (hlow : 0 < low) :
    ((Finset.range n).filter fun i => spikes d i ≠ 0).card = k := by
  have himage : (Finset.range n).filter (fun i => spikes d i ≠ 0)
      = Finset.univ.image fun r => (d.positions r : ℕ) := by
    ext i
    rw [Finset.mem_filter, Finset.mem_range, Finset.mem_image, spikes_ne_zero_iff d hlow]
    constructor
    · rintro ⟨-, r, hr⟩
      exact ⟨r, Finset.mem_univ r, hr⟩
    · rintro ⟨r, -, rfl⟩
      exact ⟨(d.positions r).isLt, r, rfl⟩
  have hinjective : Function.Injective fun r => (d.positions r : ℕ) :=
    Fin.val_injective.comp d.positions.injective
  rw [himage, Finset.card_image_of_injective _ hinjective, Finset.card_univ, Fintype.card_fin]

end Spikes

/-- The generator returns the spikes. -/
theorem sparse_eq {σ : Type} {n k : ℕ} {src : Source (World σ ℝ) ℝ} {g g' : σ}
    (d : SignedDraws n k 1 2) (hd : d.Delivered src g g') :
    (sparse src n k : World σ ℝ (Tensor Unit ℝ)).play g
      = (.ok (tabulate () [n] (spikes d)), g') := by
  obtain ⟨g₁, g₂, hpositions, hsigns, hmagnitudes⟩ := hd
  have hk := d.le_population
  unfold sparse
  rw [if_neg (by omega), if_neg (by omega), Control.one_real, Control.two_real, Int.toNat_natCast]
  refine (World.play_bind_ok hpositions).trans ?_
  rw [World.play_bind_ok hsigns, World.play_bind_ok hmagnitudes, d.signed_eq]
  exact congrArg (fun x => (Except.ok x, g')) (ofControls_range n _)

/-! ## §2. Numbers of a given norm. -/

/-- Numbers divided by their norm and multiplied by a level. -/
noncomputable def rescaled (m : ℕ) (level : ℝ) (e : ℕ → ℝ) (i : ℕ) : ℝ :=
  e i * (level / √(∑ i ∈ Finset.range m, e i ^ 2))

/-- Unless all of the numbers are zero, their norm is then the level. -/
theorem norm_rescaled {m : ℕ} {level : ℝ} (hlevel : 0 ≤ level) {e : ℕ → ℝ}
    (he : ∃ i < m, e i ≠ 0) : √(∑ i ∈ Finset.range m, rescaled m level e i ^ 2) = level := by
  obtain ⟨i, hi, hne⟩ := he
  have hpos : 0 < ∑ i ∈ Finset.range m, e i ^ 2 :=
    Finset.sum_pos' (fun i _ => sq_nonneg (e i)) ⟨i, Finset.mem_range.2 hi, by positivity⟩
  have hterm : ∀ i, rescaled m level e i ^ 2
      = e i ^ 2 * (level ^ 2 / ∑ i ∈ Finset.range m, e i ^ 2) := by
    intro i
    unfold rescaled
    rw [mul_pow, div_pow, Real.sq_sqrt hpos.le]
  rw [Finset.sum_congr rfl fun i _ => hterm i, ← Finset.sum_mul, mul_div_cancel₀ _ hpos.ne',
    Real.sqrt_sq hlevel]

/-- The root of a sum of squares of real numbers. -/
theorem rootSumSq_real (g : ℕ → ℝ) (m : ℕ) :
    rootSumSq () g m = √(∑ i ∈ Finset.range m, g i ^ 2) := by
  refine (rootSumSq_exact g m).trans (congrArg Real.sqrt (Finset.sum_congr rfl ?_))
  intro i _
  rw [Real.norm_eq_abs, sq_abs]

/-! ## §3. Unit columns. -/

/-- The position of an entry of a matrix. -/
theorem matrix_position_lt {rows n i j : ℕ} (hi : i < rows) (hj : j < n) :
    i * n + j < [rows, n].prod := by
  rw [List.prod_cons, List.prod_singleton]
  exact row_lt hi hj

section Columns

variable {rows n : ℕ} (f : ℕ → ℝ)

/-- The norm of a column of a matrix whose entries are listed row after row. -/
noncomputable def columnNorm (rows n : ℕ) (f : ℕ → ℝ) (j : ℕ) : ℝ :=
  √(∑ i ∈ Finset.range rows, f (i * n + j) ^ 2)

/-- The entries of the matrix, each divided by the norm of its column. -/
noncomputable def normalizedColumns (rows n : ℕ) (f : ℕ → ℝ) (p : ℕ) : ℝ :=
  f p / columnNorm rows n f (p % n)

theorem columnNorms_tabulate :
    columnNorms (tabulate () [rows, n] f) = tabulate () [1, n] (columnNorm rows n f) := by
  unfold columnNorms alongAxis
  apply tabulate_congr
  intro j hj
  have hjn : j < n := by
    have hset : j < [1, n].prod := hj
    rwa [List.prod_cons, List.prod_singleton, one_mul] at hset
  have hstep : stride [rows, n] 0 = n := List.prod_singleton
  refine (rootSumSq_real _ _).trans (congrArg Real.sqrt (Finset.sum_congr rfl ?_))
  intro i hi
  show (tabulate () [rows, n] f).entryD _ ((j / (1 * stride [rows, n] 0) * rows + i)
    * stride [rows, n] 0 + j % stride [rows, n] 0) ^ 2 = _
  rw [hstep, one_mul, Nat.div_eq_of_lt hjn, zero_mul, zero_add, Nat.mod_eq_of_lt hjn,
    entryD_tabulate _ _ _ _ (matrix_position_lt (Finset.mem_range.1 hi) hjn)]

/-- Each entry is divided by the norm of its column. -/
theorem div_columnNorms :
    ((tabulate () [rows, n] f).div (columnNorms (tabulate () [rows, n] f))
        : Except (Failure ℝ) (Tensor Unit ℝ))
      = .ok (tabulate () [rows, n] (normalizedColumns rows n f)) := by
  have hstretches : Stretches [1, n] [rows, n] := .same n (.one rows (.nil []))
  have hshape : stretch [rows, n] [1, n] = some [rows, n] := by
    rw [stretch_comm]
    exact stretch_of_stretches hstretches
  have hsource : ∀ p, source [1, n] [rows, n] p = p % n := by
    intro p
    show (if n = 1 then 0 else p % n) + n * ((if 1 = 1 then 0 else _) + 1 * 0) = _
    rw [coordinate_eq_mod]
    simp
  -- The row of norms is read again for every row of the matrix.
  rw [columnNorms_tabulate]
  refine (zipWith_of_stretch _ _ _ _ hshape).trans (congrArg Except.ok ?_)
  apply tabulate_congr
  intro p hp
  have hlt := source_lt hstretches hp
  rw [shape_tabulate, shape_tabulate, source_self hp, entryD_tabulate _ _ _ _ hp,
    entryD_tabulate _ _ _ _ hlt, hsource]
  rfl

/-- A column that is not zero has norm one after the division. -/
theorem columnNorm_normalizedColumns {j : ℕ} (hj : j < n) (hne : ∃ i < rows, f (i * n + j) ≠ 0) :
    columnNorm rows n (normalizedColumns rows n f) j = 1 := by
  have hentry : ∀ i, normalizedColumns rows n f (i * n + j)
      = rescaled rows 1 (fun i => f (i * n + j)) i := by
    intro i
    unfold normalizedColumns rescaled
    rw [row_mod hj, div_eq_mul_one_div]
    rfl
  unfold columnNorm
  rw [Finset.sum_congr rfl fun i _ => congrArg (· ^ 2) (hentry i)]
  exact norm_rescaled zero_le_one hne

end Columns

/-- The product of a matrix and a vector. -/
theorem matmul_tabulate (rows n : ℕ) (a x : ℕ → ℝ) :
    ((tabulate () [rows, n] a).matmul (tabulate () [n] x) : Except (Failure ℝ) (Tensor Unit ℝ))
      = .ok (tabulate () [rows] fun i => ∑ j ∈ Finset.range n, a (i * n + j) * x j) := by
  refine (matmul_vector rfl rfl rfl).trans (congrArg Except.ok (tabulate_congr _ _ ?_))
  intro i hi
  rw [List.prod_singleton] at hi
  refine (Entry.sumTo_exact _ _ _).trans (Finset.sum_congr rfl ?_)
  intro j hj
  have hjn : j < n := Finset.mem_range.1 hj
  show entry _ (i % rows * n + j) * entry _ j = _
  rw [Nat.mod_eq_of_lt hi, entry_tabulate _ _ _ (matrix_position_lt hi hjn),
    entry_tabulate _ _ _ (by rwa [List.prod_singleton])]

/-- The entries of a matrix, row after row. -/
def rowMajor {rows n : ℕ} (G : Matrix (Fin rows) (Fin n) ℝ) : List ℝ :=
  List.ofFn fun p : Fin (rows * n) => G p.divNat p.modNat

theorem getD_ofFn {m : ℕ} (w : Fin m → ℝ) (i : Fin m) : (List.ofFn w).getD i 0 = w i := by
  rw [List.getD_eq_getElem?_getD, List.getElem?_eq_getElem (by rw [List.length_ofFn]; exact i.isLt),
    List.getElem_ofFn, Option.getD_some]

theorem getD_rowMajor {rows n : ℕ} (G : Matrix (Fin rows) (Fin n) ℝ) (i : Fin rows) (j : Fin n) :
    (rowMajor G).getD (i * n + j) 0 = G i j := by
  refine (getD_ofFn _ ⟨i * n + j, row_lt i.isLt j.isLt⟩).trans ?_
  exact congrArg₂ G (Fin.ext (row_div j.isLt)) (Fin.ext (row_mod j.isLt))

/-- The tensor of numbers that a source has listed. -/
theorem ofControls_toArray (s : List ℕ) (l : List ℝ) :
    (ofControls s l.toArray : Tensor Unit ℝ) = tabulate () s fun i => l.getD i 0 :=
  ofControls_tabulate (f := fun i => l.getD i 0) _ _ fun i _ => by
    rw [Array.getD_eq_getD_getElem?, List.getElem?_toArray, List.getD_eq_getElem?_getD]

/-- The generator returns the drawn matrix with its columns divided by their norms, the spikes,
and their product. -/
theorem compressed_eq {σ : Type} {rows n k : ℕ} {src : Source (World σ ℝ) ℝ} {g g₁ g' : σ}
    {normals : List ℝ} (hnormal : (src.normal [(rows : ℤ), (n : ℤ)]).play g = (.ok normals, g₁))
    (d : SignedDraws n k 1 2) (hd : d.Delivered src g₁ g') {a : ℕ → ℝ}
    (ha : a = normalizedColumns rows n fun p => normals.getD p 0) :
    (compressed src rows n k : World σ ℝ (Tensor Unit ℝ × Tensor Unit ℝ × Tensor Unit ℝ)).play g
      = (.ok (tabulate () [rows, n] a, tabulate () [n] (spikes d),
          tabulate () [rows] fun i => ∑ j ∈ Finset.range n, a (i * n + j) * spikes d j), g') := by
  unfold compressed
  rw [World.play_bind_ok hnormal, Int.toNat_natCast, Int.toNat_natCast, ofControls_toArray]
  dsimp only
  rw [div_columnNorms, ← ha]
  refine (World.play_bind_ok (World.play_lift _ _)).trans ?_
  refine (World.play_bind_ok (sparse_eq d hd)).trans ?_
  rw [matmul_tabulate]
  exact World.play_bind_ok (World.play_lift _ _)

/-! ## §4. Feasibility. -/

/-- The generator adds the drawn numbers, rescaled to the level. -/
theorem boundedNoise_eq {σ : Type} {src : Source (World σ ℝ) ℝ} {h h' : σ} {s : List ℕ}
    {normals : List ℝ} {level : ℝ} (hlevel : 0 ≤ level)
    (hnormal : (src.normal (s.map Int.ofNat)).play h = (.ok normals, h')) (f : ℕ → ℝ) :
    (boundedNoise src (tabulate () s f) level : World σ ℝ (Tensor Unit ℝ)).play h
      = (.ok (tabulate () s fun i =>
          f i + rescaled s.prod level (fun i => normals.getD i 0) i), h') := by
  have hnorm : euclidean (tabulate () s fun i => normals.getD i 0 : Tensor Unit ℝ)
      = √(∑ i ∈ Finset.range s.prod, normals.getD i 0 ^ 2) := by
    refine (rootSumSq_real _ _).trans ?_
    rw [size_tabulate]
    refine congrArg Real.sqrt (Finset.sum_congr rfl ?_)
    intro i hi
    rw [entry_tabulate _ _ _ (Finset.mem_range.1 hi)]
  unfold boundedNoise
  rw [Control.zero_real, Control.lt_real, decide_eq_false (not_lt.2 hlevel),
    if_neg Bool.false_ne_true]
  refine (World.play_bind_ok hnormal).trans ?_
  rw [shape_tabulate, ofControls_toArray]
  dsimp only
  rw [hnorm, scale, withControl_tabulate, superpose, World.play_lift, combine_tabulate]
  rfl

/-- The distance of the image of a vector from the data. -/
noncomputable def misfit (A x b : Tensor Unit ℝ) : Except (Failure ℝ) ℝ := do
  let z ← A.matmul x
  let r ← z.sub b
  r.normValue

/-- The image of a vector is within the tolerance of the data. -/
def Feasible (A x b : Tensor Unit ℝ) (ε : ℝ) : Prop := ∃ r, misfit A x b = .ok r ∧ r ≤ ε

/-- The distance from data with noise is the norm of the noise. -/
theorem misfit_noise {A x : Tensor Unit ℝ} {s : List ℕ} {f e : ℕ → ℝ}
    (hproduct : A.matmul x = .ok (tabulate () s f)) :
    misfit A x (tabulate () s fun i => f i + e i)
      = .ok √(∑ i ∈ Finset.range s.prod, e i ^ 2) := by
  have hsub : ((tabulate () s f).sub (tabulate () s fun i => f i + e i)
      : Except (Failure ℝ) (Tensor Unit ℝ)) = .ok (tabulate () s fun i => -e i) := by
    refine (combine_tabulate _ _ _).trans (congrArg Except.ok (tabulate_congr _ _ ?_))
    intro i _
    rw [Entry.addMultiple_exact]
    simp
  apply bind_returns hproduct
  apply bind_returns hsub
  rw [normValue_eq, size_tabulate]
  refine congrArg (fun r => Except.ok √r) (Finset.sum_congr rfl ?_)
  intro i hi
  rw [entry_tabulate _ _ _ (Finset.mem_range.1 hi), norm_neg, Real.norm_eq_abs, sq_abs]

theorem feasible_iff {A x b : Tensor Unit ℝ} {level : ℝ} (hmisfit : misfit A x b = .ok level)
    (ε : ℝ) : Feasible A x b ε ↔ level ≤ ε := by
  constructor
  · rintro ⟨r, hr, hle⟩
    rw [hmisfit] at hr
    cases hr
    exact hle
  · exact fun hle => ⟨level, hmisfit, hle⟩

/-- Noise takes the image of a vector to the level, whatever the shape of the data. -/
theorem exists_noisy {τ : Type} {src : Source (World τ ℝ) ℝ} {h h' : τ} {normals : List ℝ}
    {level : ℝ} {A x b : Tensor Unit ℝ} (hproduct : A.matmul x = .ok b) (hlevel : 0 ≤ level)
    (hnormal : (src.normal (b.shape.map Int.ofNat)).play h = (.ok normals, h'))
    (hne : ∃ i < b.size, normals.getD i 0 ≠ 0) :
    ∃ b', (boundedNoise src b level).play h = (.ok b', h') ∧ b'.shape = b.shape
      ∧ misfit A x b' = .ok level := by
  obtain ⟨s, f, rfl⟩ : ∃ s f, b = tabulate () s f := ⟨_, _, (tabulate_entry b).symm⟩
  rw [size_tabulate] at hne
  rw [shape_tabulate] at hnormal
  refine ⟨_, boundedNoise_eq hlevel hnormal f, rfl, ?_⟩
  rw [misfit_noise hproduct, norm_rescaled hlevel hne]

/-- **The signal of a test problem is feasible exactly from the noise level on.**  The columns of
the matrix have norm one, and the signal has as many entries as were drawn, where they were drawn
and of the drawn magnitudes. -/
theorem problem_feasible {σ τ : Type} {rows n k : ℕ} {src : Source (World σ ℝ) ℝ}
    {src' : Source (World τ ℝ) ℝ} {g g₁ g' : σ} {h h' : τ} {level : ℝ}
    (G : Matrix (Fin rows) (Fin n) ℝ) (hG : ∀ j, ∃ i, G i j ≠ 0)
    (hnormal : (src.normal [(rows : ℤ), (n : ℤ)]).play g = (.ok (rowMajor G), g₁))
    (d : SignedDraws n k 1 2) (hd : d.Delivered src g₁ g') (hlevel : 0 ≤ level)
    {w : Fin rows → ℝ} (hw : w ≠ 0)
    (hnoise : (src'.normal [(rows : ℤ)]).play h = (.ok (List.ofFn w), h')) :
    ∃ A x b b' : Tensor Unit ℝ, (compressed src rows n k).play g = (.ok (A, x, b), g')
      ∧ (boundedNoise src' b level).play h = (.ok b', h')
      ∧ A.shape = [rows, n] ∧ x.shape = [n] ∧ b.shape = [rows] ∧ b'.shape = [rows]
      ∧ (∀ j < n, √(∑ i ∈ Finset.range rows, A.entry (i * n + j) ^ 2) = 1)
      ∧ (∀ i < n, x.entry i ≠ 0 ↔ ∃ r, (d.positions r : ℕ) = i)
      ∧ ((Finset.range n).filter fun i => x.entry i ≠ 0).card = k
      ∧ (∀ r, x.entry (d.positions r) = d.value r
          ∧ 1 ≤ |x.entry (d.positions r)| ∧ |x.entry (d.positions r)| ≤ 2)
      ∧ A.matmul x = .ok b
      ∧ misfit A x b' = .ok level
      ∧ ∀ ε, Feasible A x b' ε ↔ level ≤ ε := by
  obtain ⟨a, ha⟩ : ∃ a, a = normalizedColumns rows n fun p => (rowMajor G).getD p 0 := ⟨_, rfl⟩
  have hcompressed := compressed_eq hnormal d hd ha
  have hproduct := matmul_tabulate rows n a (spikes d)
  have hlisted : ∃ i < rows, (List.ofFn w).getD i 0 ≠ 0 := by
    obtain ⟨i, hi⟩ := Function.ne_iff.1 hw
    exact ⟨i, i.isLt, by rwa [getD_ofFn w i]⟩
  obtain ⟨b', hb', hshape, hmisfit⟩ := exists_noisy hproduct hlevel hnoise
    (by rwa [size_tabulate, List.prod_singleton])
  -- The parts left are about the columns of the matrix and about the entries of the signal.
  have hentry : ∀ i < n, (tabulate () [n] (spikes d) : Tensor Unit ℝ).entry i = spikes d i :=
    fun i hi => entry_tabulate _ _ _ (by rwa [List.prod_singleton])
  refine ⟨_, _, _, b', hcompressed, hb', rfl, rfl, rfl, hshape, ?_, ?_, ?_, ?_, hproduct, hmisfit,
    feasible_iff hmisfit⟩
  · intro j hj
    obtain ⟨i, hij⟩ := hG ⟨j, hj⟩
    have hne : (rowMajor G).getD (i * n + j) 0 ≠ 0 := (getD_rowMajor G i ⟨j, hj⟩).trans_ne hij
    have hunit := columnNorm_normalizedColumns (fun p => (rowMajor G).getD p 0) hj ⟨i, i.isLt, hne⟩
    rw [← hunit, ← ha]
    refine congrArg Real.sqrt (Finset.sum_congr rfl ?_)
    intro i hi
    rw [entry_tabulate _ _ _ (matrix_position_lt (Finset.mem_range.1 hi) hj)]
  · intro i hi
    rw [hentry i hi]
    exact spikes_ne_zero_iff d one_pos i
  · refine (congrArg Finset.card (Finset.filter_congr ?_)).trans (card_spikes d one_pos)
    intro i hi
    rw [hentry i (Finset.mem_range.1 hi)]
  · intro r
    rw [hentry _ (d.positions r).isLt, spikes_position]
    exact ⟨rfl, d.le_abs_value zero_le_one r, (d.abs_value_lt zero_le_one r).le⟩

/-- One entry of two, drawn with a negative sign. -/
noncomputable def oneSpike : SignedDraws 2 1 1 2 where
  positions := ⟨![1], by decide⟩
  signs := ![0]
  magnitudes _ := ⟨3 / 2, by norm_num, by norm_num⟩

/-- A matrix that is drawn with columns of norm five, and noise of norm five at level two. -/
theorem problem_feasible_two :
    (∀ j, ∃ i, (!![3, 4; 4, 3] : Matrix (Fin 2) (Fin 2) ℝ) i j ≠ 0) ∧ (![3, 4] : Fin 2 → ℝ) ≠ 0
      ∧ oneSpike.Delivered (oneSpike.source (rowMajor !![3, 4; 4, 3])) () ()
      ∧ ∃ A x b b' : Tensor Unit ℝ,
        (compressed (oneSpike.source (rowMajor !![3, 4; 4, 3])) 2 2 1).play ()
          = (.ok (A, x, b), ())
        ∧ (boundedNoise (oneSpike.source [3, 4]) b 2).play () = (.ok b', ())
        ∧ x.entry 1 ≠ 0 ∧ Feasible A x b' 2 ∧ ¬ Feasible A x b' 1 := by
  have hG : ∀ j, ∃ i, (!![3, 4; 4, 3] : Matrix (Fin 2) (Fin 2) ℝ) i j ≠ 0 := by
    intro j
    refine ⟨0, ?_⟩
    fin_cases j <;> simp
  have hw : (![3, 4] : Fin 2 → ℝ) ≠ 0 := Function.ne_iff.2 ⟨0, by simp⟩
  have hdelivered := oneSpike.delivered_source (rowMajor !![3, 4; 4, 3])
  have hnoise : ((oneSpike.source [3, 4]).normal [((2 : ℕ) : ℤ)]).play ()
      = (.ok (List.ofFn ![3, 4]), ()) := by
    rw [List.ofFn_succ, List.ofFn_succ, List.ofFn_zero]
    rfl
  obtain ⟨A, x, b, b', hcompressed, hbounded, -, -, -, -, -, hsupport, -, -, -, -, hfeasible⟩ :=
    problem_feasible !![3, 4; 4, 3] hG rfl oneSpike hdelivered zero_le_two hw hnoise
  refine ⟨hG, hw, hdelivered, A, x, b, b', hcompressed, hbounded, ?_, (hfeasible 2).2 le_rfl, ?_⟩
  · exact (hsupport 1 (by decide)).2 ⟨0, rfl⟩
  · intro hone
    have htwo := (hfeasible 1).1 hone
    norm_num at htwo

end TestProblem

end PrimalDual
