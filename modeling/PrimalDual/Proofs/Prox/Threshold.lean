/-
  PrimalDual.Proofs.Prox.Threshold
  ────────────────────────────────
  **SOFT THRESHOLDING AND THE PROXIMAL MAP THAT IT STANDS FOR.**

  Soft thresholding shrinks every entry by a level of its own, the step times
  the weight of that entry.  Without the floor under its divisor it would
  return the minimiser of

      t ∑ wᵢ ‖zᵢ‖ + ‖z - x‖² / 2,

  a sum with one term for each entry, so it is least where every term is
  (`isStrictMin_sum`).  Each term is what shrinkage of a single vector
  minimises; what the floor costs there is known for all magnitudes and
  levels, also for those that differ by less than the floor
  (`thresholded_shrink`).

  Weights are one number or a tensor that stretches to the shape of `x`.
  `Step.level` is what either of them says about a position.
-/
import PrimalDual.Proofs.Exact.Entries
import PrimalDual.Proofs.Prox.Proximal

namespace PrimalDual

namespace Prox

open Tensor

variable {𝕜 : Type} [RCLike 𝕜] {s : List ℕ}

/-! ## §1. The level at a position. -/

namespace Step

/-- The number that a step stands for at a position of a shape. -/
noncomputable def level (t : Step ℝ Unit 𝕜) (s : List ℕ) (i : ℕ) : ℝ :=
  match t with
  | uniform r => r
  | each T => RCLike.re (T.entry (source T.shape s i))

/-- The step says a nonnegative number at every position of a shape. -/
inductive Nonneg (s : List ℕ) : Step ℝ Unit 𝕜 → Prop where
  | uniform {r : ℝ} (hr : 0 ≤ r) : Nonneg s (uniform r)
  | each {T : Tensor Unit 𝕜} (hT : Stretches T.shape s)
      (hentry : ∀ i < T.size, ∃ r : ℝ, 0 ≤ r ∧ T.entry i = (r : 𝕜)) : Nonneg s (each T)

variable {t w : Step ℝ Unit 𝕜}

/-- What a tensor of levels holds at a position is the level there, and nothing else. -/
theorem entry_source {T : Tensor Unit 𝕜} (hT : Stretches T.shape s)
    (hentry : ∀ i < T.size, ∃ r : ℝ, 0 ≤ r ∧ T.entry i = (r : 𝕜)) {i : ℕ} (hi : i < s.prod) :
    0 ≤ (each T).level s i ∧ T.entry (source T.shape s i) = ((each T).level s i : 𝕜) := by
  have hsource : source T.shape s i < T.size := by
    rw [size_eq]
    exact source_lt hT hi
  obtain ⟨r, hr, heq⟩ := hentry _ hsource
  have hlevel : (each T).level s i = r := by
    show RCLike.re (T.entry (source T.shape s i)) = r
    rw [heq, RCLike.ofReal_re]
  rw [hlevel]
  exact ⟨hr, heq⟩

theorem Nonneg.level_nonneg (h : t.Nonneg s) {i : ℕ} (hi : i < s.prod) : 0 ≤ t.level s i := by
  cases h with
  | uniform hr => exact hr
  | each hT hentry => exact (entry_source hT hentry hi).1

/-- A step divided by real numbers, position by position. -/
theorem Nonneg.dividedBy (h : t.Nonneg s) (f : ℕ → ℝ) :
    (t.dividedBy (reals 𝕜 s f) : Except (Failure ℝ) _)
      = .ok (reals 𝕜 s fun i => t.level s i / f i) := by
  cases h with
  | uniform hr => exact congrArg Except.ok (divInto_reals s f _)
  | @each T hT hentry =>
    have hstretch : stretch T.shape (reals 𝕜 s f).shape = some s := stretch_of_stretches hT
    refine (zipWith_of_stretch () (Entry.div ()) (Entry.zero () : 𝕜) (Entry.zero () : 𝕜)
      hstretch).trans (congrArg Except.ok (tabulate_congr _ _ ?_))
    intro i hi
    show T.entry (source T.shape s i) / (reals 𝕜 s f).entry (source s s i) = _
    rw [source_self hi, (entry_source hT hentry hi).2]
    unfold reals
    rw [entry_tabulate _ _ _ hi, ← RCLike.ofReal_div]

/-- One number times a step multiplies the level at every position. -/
theorem Nonneg.times (h : w.Nonneg s) {r : ℝ} (hr : 0 ≤ r) :
    ∃ u : Step ℝ Unit 𝕜, ((Step.uniform r).times w : Except (Failure ℝ) _) = .ok u
      ∧ u.Nonneg s ∧ ∀ i < s.prod, u.level s i = r * w.level s i := by
  cases h with
  | @uniform a ha =>
    exact ⟨Step.uniform (r * a), rfl, .uniform (mul_nonneg hr ha), fun _ _ => rfl⟩
  | @each T hT hentry =>
    -- The tensor of weights is multiplied before it is stretched.
    have hscaled : ∀ i < (scale r T).size, ∃ a : ℝ, 0 ≤ a ∧ (scale r T).entry i = (a : 𝕜) := by
      intro i hi
      rw [size_scale] at hi
      obtain ⟨a, ha, heq⟩ := hentry i hi
      refine ⟨r * a, mul_nonneg hr ha, ?_⟩
      rw [entry_scale, heq, RCLike.ofReal_mul]
    refine ⟨Step.each (scale r T), rfl, .each hT hscaled, ?_⟩
    intro i _
    show RCLike.re ((scale r T).entry (source T.shape s i)) = _
    rw [entry_scale, RCLike.re_ofReal_mul]
    rfl

end Step

/-! ## §2. The entries of the result. -/

/-- Soft thresholding shrinks each entry by the level at its position. -/
theorem l1_tabulate {t : Step ℝ Unit 𝕜} (ht : t.Nonneg s) (g : ℕ → 𝕜) :
    (l1 (tabulate () s g) t : Except (Failure ℝ) _)
      = .ok (tabulate () s fun i => (shrinkFactor (t.level s i) ‖g i‖ : 𝕜) * g i) := by
  have hmagnitudes : (tabulate () s g).magnitudes = reals 𝕜 s fun i => ‖g i‖ :=
    map_tabulate _ _ _ _ _
  unfold l1
  rw [hmagnitudes, shift_reals, ht.dividedBy]
  show (atLeast Control.zero (subFrom Control.one (reals 𝕜 s _))
    >>= fun factor => (tabulate () s g).mul factor) = _
  rw [subFrom_reals, atLeast_reals, Control.zero_real, Control.one_real]
  refine (combine_tabulate _ _ _).trans (congrArg Except.ok (tabulate_congr _ _ ?_))
  intro i _
  exact mul_comm _ _

/-- With weights, the level is the step times the weight. -/
theorem weightedL1_tabulate {w : Step ℝ Unit 𝕜} (hw : w.Nonneg s) {t : ℝ} (ht : 0 ≤ t)
    (g : ℕ → 𝕜) : (weightedL1 w (tabulate () s g) (.uniform t) : Except (Failure ℝ) _)
      = .ok (tabulate () s fun i => (shrinkFactor (t * w.level s i) ‖g i‖ : 𝕜) * g i) := by
  obtain ⟨u, hu, hnonneg, hlevel⟩ := hw.times ht
  unfold weightedL1
  rw [hu]
  refine (l1_tabulate hnonneg g).trans (congrArg Except.ok (tabulate_congr _ _ ?_))
  intro i hi
  rw [hlevel i hi]

/-- Without weights, every entry has the weight 1. -/
theorem l1_eq_weightedL1 (x : Tensor Unit 𝕜) (t : ℝ) :
    (l1 x (.uniform t) : Except (Failure ℝ) _) = weightedL1 (.uniform 1) x (.uniform t) := by
  show _ = l1 x (.uniform (t * 1))
  rw [mul_one]

/-! ## §3. One entry. -/

/-- `z` is the entry `a` with its magnitude lowered by a level, up to the floor. -/
structure Thresholded (level : ℝ) (a z : 𝕜) : Prop where
  multiple : ∃ c : ℝ, 0 ≤ c ∧ z = (c : 𝕜) * a
  norm_ge : max 0 (‖a‖ - level) ≤ ‖z‖
  norm_le : ‖z‖ ≤ max 0 (‖a‖ - level) + normFloor

theorem thresholded_shrink {level : ℝ} (h : 0 ≤ level) (a : 𝕜) :
    Thresholded level a ((shrinkFactor level ‖a‖ : 𝕜) * a) where
  multiple := ⟨shrinkFactor level ‖a‖, shrinkFactor_nonneg, rfl⟩
  norm_ge := by
    rw [← smul_eq_mul, norm_ofReal_smul shrinkFactor_nonneg]
    exact le_shrink_length h (norm_nonneg a)
  norm_le := by
    rw [← smul_eq_mul, norm_ofReal_smul shrinkFactor_nonneg]
    exact shrink_length_le (norm_nonneg a)

/-! ## §4. All entries together. -/

/-- A sum with one term for each entry is least where every term is. -/
theorem isStrictMin_sum {F : Fin s.prod → 𝕜 → ℝ} {p : Space 𝕜 s}
    (h : ∀ i, IsStrictMin (F i) Set.univ (p i)) :
    IsStrictMin (fun w : Space 𝕜 s => ∑ i, F i (w i)) Set.univ p := by
  refine ⟨Set.mem_univ p, ?_⟩
  intro w _ hne
  have hle : ∀ i, F i (p i) ≤ F i (w i) := by
    intro i
    by_cases hi : w i = p i
    · rw [hi]
    · exact ((h i).2 (w i) (Set.mem_univ _) hi).le
  -- Another point differs in an entry, and there it is strictly worse.
  obtain ⟨j, hj⟩ : ∃ j, w j ≠ p j := by
    by_contra hall
    push Not at hall
    exact hne (PiLp.ext hall)
  exact Finset.sum_lt_sum (fun i _ => hle i)
    ⟨j, Finset.mem_univ j, (h j).2 (w j) (Set.mem_univ _) hj⟩

/-- What the proximal map of a weighted sum of magnitudes minimises. -/
noncomputable def thresholdGoal (t : ℝ) (w : Step ℝ Unit 𝕜) (s : List ℕ) (v z : Space 𝕜 s) : ℝ :=
  t * ∑ i : Fin s.prod, w.level s i * ‖z i‖ + ‖z - v‖ ^ 2 / 2

/-- The exact thresholds minimise the weighted sum. -/
theorem isStrictMin_threshold {t : ℝ} (ht : 0 ≤ t) {w : Step ℝ Unit 𝕜} (hw : w.Nonneg s)
    (v : Space 𝕜 s) : IsStrictMin (thresholdGoal t w s v) Set.univ
      (WithLp.toLp 2 fun i : Fin s.prod => (exactFactor (t * w.level s i) ‖v i‖ : 𝕜) • v i) := by
  -- The square of the distance is a sum over the entries as well.
  have hsplit : thresholdGoal t w s v
      = fun z => ∑ i : Fin s.prod, (t * w.level s i * ‖z i‖ + ‖z i - v i‖ ^ 2 / 2) := by
    funext z
    unfold thresholdGoal
    rw [EuclideanSpace.norm_sq_eq, Finset.sum_add_distrib, Finset.mul_sum, Finset.sum_div]
    refine congrArg (· + _) (Finset.sum_congr rfl ?_)
    intro i _
    rw [mul_assoc]
  rw [hsplit]
  apply isStrictMin_sum (F := fun i a => t * w.level s i * ‖a‖ + ‖a - v i‖ ^ 2 / 2)
  intro i
  exact isStrictMin_shrink (𝕜 := 𝕜) (mul_nonneg ht (hw.level_nonneg i.isLt)) (v i)

/-- `z` is the tensor `x` with every magnitude lowered by the step times its weight, up to
the floor. -/
structure NearThreshold (t : ℝ) (w : Step ℝ Unit 𝕜) (x z : Tensor Unit 𝕜) : Prop where
  shape_eq : z.shape = x.shape
  entries : ∀ i < x.size, Thresholded (t * w.level x.shape i) (x.entry i) (z.entry i)
  near : ∃ p : Space 𝕜 x.shape,
    IsStrictMin (thresholdGoal t w x.shape (vec x.shape x)) Set.univ p
      ∧ ∀ i : Fin x.shape.prod, ‖z.entry i - p i‖ ≤ normFloor

theorem weightedL1_near {w : Step ℝ Unit 𝕜} {x : Tensor Unit 𝕜} (hw : w.Nonneg x.shape) {t : ℝ}
    (ht : 0 ≤ t) : ∃ z, (weightedL1 w x (.uniform t) : Except (Failure ℝ) _) = .ok z
      ∧ NearThreshold t w x z := by
  have hresult := weightedL1_tabulate hw ht x.entry
  rw [tabulate_entry] at hresult
  have hlevel : ∀ i < x.shape.prod, 0 ≤ t * w.level x.shape i := fun i hi =>
    mul_nonneg ht (hw.level_nonneg hi)
  refine ⟨_, hresult, rfl, fun i hi => ?_, _, isStrictMin_threshold ht hw _, fun i => ?_⟩
  · rw [size_eq] at hi
    rw [entry_tabulate _ _ _ hi]
    exact thresholded_shrink (hlevel i hi) _
  · rw [entry_tabulate _ _ _ i.isLt]
    refine norm_smul_sub_smul_le (𝕜 := 𝕜) (x.entry i) ?_
    exact abs_shrink_sub_exact_le (hlevel i i.isLt) (norm_nonneg _)

/-- **Soft thresholding is the proximal map up to the floor**, with weights of either form
and without weights. -/
theorem threshold_near_proximal (x : Tensor Unit 𝕜) {t : ℝ} (ht : 0 ≤ t) :
    (∀ w : Step ℝ Unit 𝕜, w.Nonneg x.shape →
        ∃ z, (weightedL1 w x (.uniform t) : Except (Failure ℝ) _) = .ok z ∧ NearThreshold t w x z)
      ∧ ∃ z, (l1 x (.uniform t) : Except (Failure ℝ) _) = .ok z
        ∧ NearThreshold t (.uniform 1) x z := by
  refine ⟨fun w hw => weightedL1_near hw ht, ?_⟩
  rw [l1_eq_weightedL1]
  exact weightedL1_near (.uniform zero_le_one) ht

/-- Four numbers of magnitude 1. -/
noncomputable def phases : Tensor Unit ℂ := tabulate () [2, 2] fun i => Complex.I ^ i

/-- A weight for each of two columns: 0 and 1. -/
noncomputable def columnWeights : Step ℝ Unit ℂ := .each (tabulate () [2] fun i => (i : ℂ))

theorem columnWeights_nonneg : columnWeights.Nonneg [2, 2] := by
  refine .each (stretches_append [2] [2]) fun i hi => ⟨i, i.cast_nonneg, ?_⟩
  rw [size_tabulate] at hi
  rw [entry_tabulate _ _ _ hi]
  rfl

theorem level_columnWeights {i : ℕ} (hi : i < 4) :
    columnWeights.level [2, 2] i = (source [2] [2, 2] i : ℕ) :=
  (congrArg Complex.re (entry_tabulate _ _ _ (source_lt (stretches_append [2] [2]) hi))).trans
    (Complex.natCast_re _)

/-- The first column is kept; in the second, magnitude and level are equal. -/
theorem threshold_near_proximal_phases :
    0 ≤ (1 : ℝ) ∧ columnWeights.Nonneg [2, 2]
      ∧ ∃ z : Tensor Unit ℂ,
        (weightedL1 columnWeights phases (.uniform 1) : Except (Failure ℝ) _) = .ok z
          ∧ z.shape = [2, 2] ∧ Thresholded 0 1 (z.entry 0)
          ∧ Thresholded 1 Complex.I (z.entry 1) := by
  have hsize : phases.size = 4 := size_tabulate _ _ _
  obtain ⟨z, hz, hnear⟩ :=
    (threshold_near_proximal phases zero_le_one).1 columnWeights columnWeights_nonneg
  refine ⟨zero_le_one, columnWeights_nonneg, z, hz, hnear.shape_eq, ?_, ?_⟩
  · have hfirst := hnear.entries 0 (by omega)
    have hlevel : (1 : ℝ) * columnWeights.level phases.shape 0 = 0 :=
      (one_mul _).trans ((level_columnWeights (by omega)).trans Nat.cast_zero)
    have hentry : phases.entry 0 = 1 := (entry_tabulate _ _ _ (by decide)).trans (pow_zero _)
    rwa [hlevel, hentry] at hfirst
  · have hsecond := hnear.entries 1 (by omega)
    have hlevel : (1 : ℝ) * columnWeights.level phases.shape 1 = 1 :=
      (one_mul _).trans ((level_columnWeights (by omega)).trans Nat.cast_one)
    have hentry : phases.entry 1 = Complex.I :=
      (entry_tabulate _ _ _ (by decide)).trans (pow_one _)
    rwa [hlevel, hentry] at hsecond

end Prox

end PrimalDual
