/-
  PrimalDual.Proofs.Prox.DualMap
  ──────────────────────────────
  **THE DUAL MAP IN EXACT ARITHMETIC.**

  The proximal map of the dual step shrinks the leading block as one vector
  and projects each entry of the trailing block on the unit disc:

      dualMap ρ q v = shrinkFactor ρ ‖lead q v‖ • lead q v + clip (trail q v)

  `dual_ofVec` says that the map on tensors is this map on the vectors that
  they hold, whatever their shape.  The floor under the divisors is part of
  both factors.
-/
import PrimalDual.Proofs.Prox.Split

namespace PrimalDual

namespace Prox

variable {𝕜 : Type} [RCLike 𝕜] {s : List ℕ}

/-! ## §1. The map. -/

/-- The factor by which a vector of norm `r` is shrunk by `ρ`. -/
noncomputable def shrinkFactor (ρ r : ℝ) : ℝ := max 0 (1 - ρ / (r + normFloor))

/-- The factor by which an entry of magnitude `r` is moved into the unit disc. -/
noncomputable def clipFactor (r : ℝ) : ℝ := min 1 (1 / (r + normFloor))

/-- Every entry moved into the unit disc. -/
noncomputable def clip (v : Space 𝕜 s) : Space 𝕜 s :=
  WithLp.toLp 2 fun i => (clipFactor ‖v i‖ : 𝕜) * v i

/-- The proximal map of the dual step on vectors. -/
noncomputable def dualMap (ρ : ℝ) (q : ℕ) (v : Space 𝕜 s) : Space 𝕜 s :=
  (shrinkFactor ρ ‖lead q v‖ : 𝕜) • lead q v + clip (trail q v)

theorem clip_apply (v : Space 𝕜 s) (i : Fin s.prod) :
    clip v i = (clipFactor ‖v i‖ : 𝕜) * v i := rfl

theorem dualMap_apply (ρ : ℝ) (q : ℕ) (v : Space 𝕜 s) (i : Fin s.prod) :
    dualMap ρ q v i =
      if i + q < s.prod then (shrinkFactor ρ ‖lead q v‖ : 𝕜) * v i
      else (clipFactor ‖v i‖ : 𝕜) * v i := by
  show (shrinkFactor ρ ‖lead q v‖ : 𝕜) * lead q v i + clip (trail q v) i = _
  by_cases h : i + q < s.prod <;> simp [lead_apply, clip_apply, trail_apply, h]

/-- The leading part of the dual map is the shrunk leading part. -/
theorem lead_dualMap (ρ : ℝ) (q : ℕ) (v : Space 𝕜 s) :
    lead q (dualMap ρ q v) = (shrinkFactor ρ ‖lead q v‖ : 𝕜) • lead q v := by
  ext i
  show lead q (dualMap ρ q v) i = (shrinkFactor ρ ‖lead q v‖ : 𝕜) * lead q v i
  by_cases h : i + q < s.prod <;> simp [lead_apply, dualMap_apply, h]

/-- The trailing part of the dual map is the clipped trailing part. -/
theorem trail_dualMap (ρ : ℝ) (q : ℕ) (v : Space 𝕜 s) :
    trail q (dualMap ρ q v) = clip (trail q v) := by
  ext i
  by_cases h : i + q < s.prod <;> simp [trail_apply, clip_apply, dualMap_apply, h]

/-! ## §2. The map on tensors. -/

section Evaluation

open Tensor

variable (t : List ℕ) (f : ℕ → ℝ)

/-- The tensor of a sequence of real numbers. -/
def reals (𝕜 : Type) [RCLike 𝕜] (t : List ℕ) (f : ℕ → ℝ) : Tensor Unit 𝕜 :=
  tabulate () t fun i => (f i : 𝕜)

theorem shift_reals (r : ℝ) : (reals 𝕜 t f).shift r = reals 𝕜 t fun i => f i + r := by
  refine (withControl_tabulate _ _ _).trans (tabulate_congr _ _ ?_)
  intro i _
  exact (RCLike.ofReal_add _ _).symm

theorem divInto_reals (r : ℝ) : divInto r (reals 𝕜 t f) = reals 𝕜 t fun i => r / f i := by
  have hrecip : (reals 𝕜 t f).reciprocal = reals 𝕜 t fun i => 1 / f i := by
    refine (withControl_tabulate _ _ _).trans (tabulate_congr _ _ ?_)
    intro i _
    show ((Control.one : ℝ) : 𝕜) / (f i : 𝕜) = _
    rw [Control.one_real, ← RCLike.ofReal_div]
  unfold divInto
  rw [hrecip]
  refine (withControl_tabulate _ _ _).trans (tabulate_congr _ _ ?_)
  intro i _
  show ((1 / f i : ℝ) : 𝕜) * (r : 𝕜) = _
  rw [← RCLike.ofReal_mul, one_div_mul_eq_div]

theorem subFrom_reals (r : ℝ) : subFrom r (reals 𝕜 t f) = reals 𝕜 t fun i => r - f i := by
  refine (withControl_tabulate _ _ _).trans (tabulate_congr _ _ ?_)
  intro i _
  exact (RCLike.ofReal_sub _ _).symm

/-- Real entries are raised to a bound entry by entry. -/
theorem atLeast_reals (r : ℝ) :
    ((reals 𝕜 t f).atLeast r : Except (Failure ℝ) _) = .ok (reals 𝕜 t fun i => max r (f i)) := by
  refine congrArg Except.ok ((map_tabulate _ _ _ _ _).trans (tabulate_congr _ _ ?_))
  intro i _
  show ((max r (RCLike.re (f i : 𝕜)) : ℝ) : 𝕜) = _
  rw [RCLike.ofReal_re]

/-- The entries of the dual map, those of the leading block coming first. -/
theorem dual_tabulate (ρ : ℝ) {m q : ℕ} (hm : t.prod = m + q) (g : ℕ → 𝕜) :
    (dual (tabulate () t g) ρ (.whole q) : Except (Failure ℝ) _) = .ok (tabulate () t fun i =>
      if i < m then (shrinkFactor ρ √(∑ i ∈ Finset.range m, ‖g i‖ ^ 2) : 𝕜) * g i
      else (clipFactor ‖g i‖ : 𝕜) * g i) := by
  have hcount : leadCount t.prod q = m := by
    have := leadCount_of_le (n := t.prod) (q := q) (by omega) (by omega)
    omega
  refine (dual_split g (normed_exact 𝕜) ρ q).trans ?_
  refine congrArg Except.ok (tabulate_congr _ _ ?_)
  intro i _
  unfold dualEntry
  rw [hcount]
  by_cases h : i < m
  · rw [if_pos h, if_pos h, blockNorm_exact]
    exact congrArg (· * g i) (shrinking_exact ρ _)
  · rw [if_neg h, if_neg h]
    exact congrArg (· * g i) (clipping_exact ‖g i‖)

end Evaluation

/-- The norm of the leading block is that of the entries before the cut. -/
theorem norm_lead (q : ℕ) (v : Space 𝕜 s) :
    ‖lead q v‖ = √(∑ i ∈ Finset.range (s.prod - q), ‖(Tensor.ofVec s v).entry i‖ ^ 2) := by
  rw [Tensor.norm_eq_sqrt_sum]
  refine congrArg Real.sqrt ?_
  -- The entries from the cut on are zero in the leading block.
  refine (Finset.sum_subset_zero_on_sdiff (Finset.range_mono (Nat.sub_le _ q)) ?_ ?_).symm
  · intro i hi
    rw [Finset.mem_sdiff, Finset.mem_range, Finset.mem_range] at hi
    rw [Tensor.entry_ofVec _ hi.1, lead_apply, if_neg (by simp; omega)]
    simp
  · intro i hi
    rw [Finset.mem_range] at hi
    rw [Tensor.entry_ofVec _ (by omega), Tensor.entry_ofVec _ (by omega), lead_apply,
      if_pos (by simp; omega)]

/-- **The proximal map of the dual step, on tensors of any shape.** -/
theorem dual_ofVec (ρ : ℝ) {q : ℕ} (hq : q ≤ s.prod) (v : Space 𝕜 s) :
    (dual (Tensor.ofVec s v) ρ (.whole q) : Except (Failure ℝ) _)
      = .ok (Tensor.ofVec s (dualMap ρ q v)) := by
  have hm : s.prod = (s.prod - q) + q := by omega
  have hv : Tensor.ofVec s v = Tensor.tabulate () s fun i => (Tensor.ofVec s v).entry i := by
    apply Tensor.tabulate_congr
    intro i hi
    rw [dif_pos hi, Tensor.entry_ofVec v hi]
  rw [hv, dual_tabulate s ρ hm, ← norm_lead]
  refine congrArg Except.ok (Tensor.tabulate_congr _ _ ?_)
  intro i hi
  rw [dif_pos hi, dualMap_apply, Tensor.entry_ofVec v hi]
  by_cases h : i + q < s.prod
  · rw [if_pos h, if_pos (by omega)]
  · rw [if_neg h, if_neg (by omega)]

/-- The map, whatever is said to be the size of the analysis block. -/
theorem dual_ofVec_whole (ρ : ℝ) (q : ℤ) (v : Space 𝕜 s) :
    (dual (Tensor.ofVec s v) ρ (.whole q) : Except (Failure ℝ) _)
      = .ok (Tensor.ofVec s (dualMap ρ (tailCount s.prod q) v)) := by
  have hfits := dual_tailCount (y := Tensor.ofVec s v) (normed_exact 𝕜) ρ q
  rw [Tensor.size_ofVec] at hfits
  rw [← hfits]
  exact dual_ofVec ρ (tailCount_le _ _) v

end Prox

end PrimalDual
