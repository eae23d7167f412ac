/-
  PrimalDual.Proofs.Prox.Proximal
  ───────────────────────────────
  **THE DUAL MAP AND THE PROXIMAL MAP THAT IT STANDS FOR.**

  Without the floor under its divisors the dual map would be a proximal map:

      leading block   argmin of  ρ ‖w‖ + ‖w - v‖² / 2     (w a vector of that block)
      trailing entry  argmin of  ‖w - a‖                  over the unit disc

  Both minimisers are unique, and both are nonnegative multiples of what they
  are computed from, by the factor of the library at floor 0 (§2).  The two
  factors differ most where the magnitude is about as large as the threshold;
  even there the lengths that they leave differ by `normFloor` at most (§1).
-/
import PrimalDual.Proofs.Prox.DualBounds

namespace PrimalDual

namespace Prox

open scoped InnerProductSpace

variable {𝕜 : Type} [RCLike 𝕜]

/-! ## §1. The factor without the floor. -/

section Factor

variable {ρ r : ℝ}

/-- The factor by which shrinkage by `ρ` shortens a vector of norm `r`.  The zero vector
is kept, and any factor would do for it. -/
noncomputable def exactFactor (ρ r : ℝ) : ℝ := max 0 (1 - ρ / r)

theorem exactFactor_nonneg : 0 ≤ exactFactor ρ r := le_max_left _ _

theorem exactFactor_le_one (hρ : 0 ≤ ρ) (hr : 0 ≤ r) : exactFactor ρ r ≤ 1 :=
  max_le zero_le_one (by linarith [div_nonneg hρ hr])

/-- The norm that shrinkage leaves. -/
theorem exactFactor_mul (hρ : 0 ≤ ρ) (hr : 0 ≤ r) : exactFactor ρ r * r = max 0 (r - ρ) := by
  by_cases h : r = 0
  · rw [h, mul_zero, zero_sub, max_eq_left (neg_nonpos.2 hρ)]
  · unfold exactFactor
    rw [max_mul_of_nonneg _ _ hr, zero_mul, sub_mul, one_mul, div_mul_cancel₀ _ h]

/-- Shrinkage with the floor leaves no less than shrinkage without it. -/
theorem le_shrink_length (hρ : 0 ≤ ρ) (hr : 0 ≤ r) : max 0 (r - ρ) ≤ shrinkFactor ρ r * r := by
  have hres := shrink_residual_le hρ hr
  apply max_le
  · exact mul_nonneg shrinkFactor_nonneg hr
  · linarith

/-- The floor adds no more than itself to the norm that is left. -/
theorem shrink_length_le (hr : 0 ≤ r) :
    shrinkFactor ρ r * r ≤ max 0 (r - ρ) + normFloor := by
  have hf := normFloor_pos
  have hmax : r - ρ ≤ max 0 (r - ρ) := le_max_right _ _
  by_cases h : shrinkFactor ρ r = 0
  · rw [h, zero_mul]
    exact add_nonneg (le_max_left _ _) hf.le
  · -- Something is left, so `ρ` was taken away but for a share of the floor.
    have hslack : ρ - (1 - shrinkFactor ρ r) * r = (1 - shrinkFactor ρ r) * normFloor :=
      mul_left_cancel₀ h (shrink_slack hr)
    have hshare : (1 - shrinkFactor ρ r) * normFloor ≤ 1 * normFloor :=
      mul_le_mul_of_nonneg_right (by linarith [shrinkFactor_nonneg (ρ := ρ) (r := r)]) hf.le
    linarith

/-- The two factors leave lengths no further apart than the floor. -/
theorem abs_shrink_sub_exact_le (hρ : 0 ≤ ρ) (hr : 0 ≤ r) :
    |shrinkFactor ρ r - exactFactor ρ r| * r ≤ normFloor := by
  have hlow := le_shrink_length hρ hr
  have hhigh := shrink_length_le (ρ := ρ) hr
  rw [← abs_of_nonneg hr, ← abs_mul, abs_of_nonneg hr, sub_mul, exactFactor_mul hρ hr, abs_le]
  constructor <;> linarith [normFloor_pos]

end Factor

/-! ## §2. Minimisers. -/

section Minimiser

variable {E : Type*} [NormedAddCommGroup E] [InnerProductSpace 𝕜 E]

/-- `p` is in `S`, and `F` is greater at every other point of `S`. -/
def IsStrictMin {E : Type*} (F : E → ℝ) (S : Set E) (p : E) : Prop :=
  p ∈ S ∧ ∀ w ∈ S, w ≠ p → F p < F w

/-- The distances of `p` and `w` from a third point. -/
theorem norm_sub_sq_through (v p w : E) :
    ‖w - v‖ ^ 2 = ‖p - v‖ ^ 2 + ‖w - p‖ ^ 2 + 2 * RCLike.re ⟪v - p, p - w⟫_𝕜 := by
  have hsplit : w - v = (p - v) + (w - p) := by abel
  have hinner : RCLike.re ⟪p - v, w - p⟫_𝕜 = RCLike.re ⟪v - p, p - w⟫_𝕜 := by
    rw [← neg_sub v p, ← neg_sub p w, inner_neg_neg]
  rw [hsplit, norm_add_sq (𝕜 := 𝕜), hinner]
  ring

/-- The variational inequality of a proximal point makes it the strict minimiser. -/
theorem isStrictMin_of_variational {J : E → ℝ} {S : Set E} {v p : E} (hp : p ∈ S)
    (h : ∀ w ∈ S, J p - J w ≤ RCLike.re ⟪v - p, p - w⟫_𝕜) :
    IsStrictMin (fun w => J w + ‖w - v‖ ^ 2 / 2) S p := by
  refine ⟨hp, ?_⟩
  intro w hw hne
  have hvar := h w hw
  have hdist : 0 < ‖w - p‖ ^ 2 := pow_pos (norm_pos_iff.2 (sub_ne_zero.2 hne)) 2
  show J p + ‖p - v‖ ^ 2 / 2 < J w + ‖w - v‖ ^ 2 / 2
  rw [norm_sub_sq_through (𝕜 := 𝕜) v p w]
  linarith

/-- **Shrinkage minimises `ρ ‖w‖ + ‖w - v‖² / 2`.** -/
theorem isStrictMin_shrink {ρ : ℝ} (hρ : 0 ≤ ρ) (v : E) :
    IsStrictMin (fun w => ρ * ‖w‖ + ‖w - v‖ ^ 2 / 2) Set.univ
      ((exactFactor ρ ‖v‖ : 𝕜) • v) := by
  have hv := norm_nonneg v
  have hle := exactFactor_le_one hρ hv
  have hlength := exactFactor_mul hρ hv
  have hresidual : (1 - exactFactor ρ ‖v‖) * ‖v‖ ≤ ρ := by
    linarith [le_max_right 0 (‖v‖ - ρ)]
  apply isStrictMin_of_variational (𝕜 := 𝕜) (Set.mem_univ _)
  intro w _
  refine le_trans ?_ (le_re_inner_residual hle v w)
  have hw := mul_le_mul_of_nonneg_right hresidual (norm_nonneg w)
  rw [norm_ofReal_smul exactFactor_nonneg]
  -- Where something is left, exactly `ρ` was taken away.
  rcases le_total (‖v‖ - ρ) 0 with h | h
  · rw [max_eq_left h] at hlength
    rw [hlength]
    linarith
  · rw [max_eq_right h] at hlength
    have htaken : (1 - exactFactor ρ ‖v‖) * ‖v‖ = ρ := by linarith
    rw [htaken] at hw ⊢
    linarith

/-- **The nearest point of the unit disc is what shrinkage by 1 takes away.** -/
theorem isStrictMin_disc (a : 𝕜) :
    IsStrictMin (fun w => ‖w - a‖) {w | ‖w‖ ≤ 1} (((1 - exactFactor 1 ‖a‖ : ℝ) : 𝕜) • a) := by
  set k := 1 - exactFactor 1 ‖a‖ with hk
  have ha := norm_nonneg a
  have hk₀ : 0 ≤ k := sub_nonneg.2 (exactFactor_le_one zero_le_one ha)
  have hk₁ : k ≤ 1 := sub_le_self 1 exactFactor_nonneg
  have hkept : k * ‖a‖ = ‖a‖ - max 0 (‖a‖ - 1) := by
    rw [hk, sub_mul, one_mul, exactFactor_mul zero_le_one ha]
  have hmem : ‖(k : 𝕜) • a‖ ≤ 1 := by
    rw [norm_ofReal_smul hk₀, hkept]
    linarith [le_max_right 0 (‖a‖ - 1)]
  -- Inside the disc nothing is removed; outside, the point lies on the circle.
  have hvar : ∀ w ∈ {w : 𝕜 | ‖w‖ ≤ 1},
      (0 : ℝ) - 0 ≤ RCLike.re ⟪a - (k : 𝕜) • a, (k : 𝕜) • a - w⟫_𝕜 := by
    intro w hw
    have hw' : ‖w‖ ≤ 1 := hw
    refine le_trans ?_ (le_re_inner_residual hk₁ a w)
    rw [sub_zero]
    rcases le_total (‖a‖ - 1) 0 with h | h
    · rw [max_eq_left h, sub_zero] at hkept
      rw [sub_mul, one_mul, hkept, sub_self, zero_mul]
    · rw [max_eq_right h, sub_sub_cancel] at hkept
      exact mul_nonneg (mul_nonneg (sub_nonneg.2 hk₁) ha) (by linarith)
  have hmin := isStrictMin_of_variational (𝕜 := 𝕜) (S := {w : 𝕜 | ‖w‖ ≤ 1}) (J := fun _ => 0)
    hmem hvar
  refine ⟨hmem, ?_⟩
  intro w hw hne
  have hlt : 0 + ‖(k : 𝕜) • a - a‖ ^ 2 / 2 < 0 + ‖w - a‖ ^ 2 / 2 := hmin.2 w hw hne
  exact lt_of_pow_lt_pow_left₀ 2 (norm_nonneg _) (by linarith)

end Minimiser

/-! ## §3. What a block becomes. -/

/-- `z` is the vector `v` shrunk by `ρ`, up to the floor. -/
structure Shrunk {m : ℕ} (ρ : ℝ) (v z : Space 𝕜 [m]) : Prop where
  multiple : ∃ c : ℝ, 0 ≤ c ∧ z = (c : 𝕜) • v
  norm_ge : max 0 (‖v‖ - ρ) ≤ ‖z‖
  norm_le : ‖z‖ ≤ max 0 (‖v‖ - ρ) + normFloor
  near : ∃ p, IsStrictMin (fun w => ρ * ‖w‖ + ‖w - v‖ ^ 2 / 2) Set.univ p ∧ ‖z - p‖ ≤ normFloor
  kept : ρ = 0 → z = v

/-- `z` is the entry `a` projected on the unit disc, up to the floor. -/
structure Clipped (a z : 𝕜) : Prop where
  multiple : ∃ c : ℝ, 0 ≤ c ∧ z = (c : 𝕜) * a
  norm_le : ‖z‖ ≤ 1
  near : ∃ p, IsStrictMin (fun w => ‖w - a‖) {w | ‖w‖ ≤ 1} p ∧ ‖z - p‖ ≤ normFloor

/-- One entry moved into the unit disc. -/
noncomputable def clipEntry (a : 𝕜) : 𝕜 := (clipFactor ‖a‖ : 𝕜) * a

/-- Multiples of one vector are as far apart as their factors say. -/
theorem norm_smul_sub_smul_le {E : Type*} [NormedAddCommGroup E] [InnerProductSpace 𝕜 E] {c k : ℝ}
    (v : E) (h : |c - k| * ‖v‖ ≤ normFloor) : ‖(c : 𝕜) • v - (k : 𝕜) • v‖ ≤ normFloor := by
  rw [← sub_smul, ← RCLike.ofReal_sub, norm_smul, RCLike.norm_ofReal]
  exact h

theorem shrunk_smul {m : ℕ} {ρ : ℝ} (hρ : 0 ≤ ρ) (v : Space 𝕜 [m]) :
    Shrunk ρ v ((shrinkFactor ρ ‖v‖ : 𝕜) • v) where
  multiple := ⟨shrinkFactor ρ ‖v‖, shrinkFactor_nonneg, rfl⟩
  norm_ge := by
    rw [norm_ofReal_smul shrinkFactor_nonneg]
    exact le_shrink_length hρ (norm_nonneg v)
  norm_le := by
    rw [norm_ofReal_smul shrinkFactor_nonneg]
    exact shrink_length_le (norm_nonneg v)
  near := by
    refine ⟨_, isStrictMin_shrink (𝕜 := 𝕜) hρ v, ?_⟩
    exact norm_smul_sub_smul_le v (abs_shrink_sub_exact_le hρ (norm_nonneg v))
  kept := by
    intro h
    have hone : shrinkFactor ρ ‖v‖ = 1 := by
      unfold shrinkFactor
      rw [h, zero_div, sub_zero, max_eq_right zero_le_one]
    rw [hone, RCLike.ofReal_one, one_smul]

theorem clipped_clipEntry (a : 𝕜) : Clipped a (clipEntry a) where
  multiple := ⟨clipFactor ‖a‖, clipFactor_nonneg (norm_nonneg a), rfl⟩
  norm_le := norm_clip_le a
  near := by
    refine ⟨_, isStrictMin_disc a, ?_⟩
    refine norm_smul_sub_smul_le (𝕜 := 𝕜) a ?_
    -- What the projections keep differs as what the shrinkages by 1 keep.
    rw [clipFactor_eq, sub_sub_sub_cancel_left, abs_sub_comm]
    exact abs_shrink_sub_exact_le zero_le_one (norm_nonneg a)

/-! ## §4. The dual map on tensors. -/

open Tensor

/-- The norm of the entries before the cut, as a vector of their own. -/
theorem norm_vec_vector (m : ℕ) (y : Tensor Unit 𝕜) :
    ‖vec [m] y‖ = √(∑ i ∈ Finset.range m, ‖y.entry i‖ ^ 2) := by
  rw [EuclideanSpace.norm_eq]
  refine congrArg Real.sqrt ((Finset.sum_range fun i => ‖y.entry i‖ ^ 2).symm.trans ?_)
  rw [List.prod_singleton]

/-- **The dual map is the proximal map up to the floor.**  Whatever the shape of `y`, the
entries but the last `q` are shrunk as one vector, and each of the last `q` is
projected on the unit disc by a map that looks at nothing else. -/
theorem dual_near_proximal (y : Tensor Unit 𝕜) {ρ : ℝ} (hρ : 0 ≤ ρ) {q : ℕ} (hq : q ≤ y.size) :
    ∃ z : Tensor Unit 𝕜, (dual y ρ (.whole q) : Except (Failure ℝ) _) = .ok z
      ∧ z.shape = y.shape
      ∧ Shrunk ρ (vec [y.size - q] y) (vec [y.size - q] z)
      ∧ ∀ j, y.size - q ≤ j → j < y.size →
          z.entry j = clipEntry (y.entry j) ∧ Clipped (y.entry j) (z.entry j) := by
  set m := y.size - q with hm
  have hcut : y.shape.prod = m + q := by
    rw [← size_eq]
    omega
  -- The result in full: one factor before the cut, one for each entry behind it.
  have hdual := dual_tabulate y.shape ρ hcut y.entry
  rw [tabulate_entry, ← norm_vec_vector] at hdual
  refine ⟨_, hdual, rfl, ?_, ?_⟩
  · -- The leading block of the result, read as a vector, is the multiple.
    have hlead : vec [m] (tabulate () y.shape fun i =>
        if i < m then (shrinkFactor ρ ‖vec [m] y‖ : 𝕜) * y.entry i
        else (clipFactor ‖y.entry i‖ : 𝕜) * y.entry i)
        = (shrinkFactor ρ ‖vec [m] y‖ : 𝕜) • vec [m] y := by
      ext i
      have hi : (i : ℕ) < m := lt_of_lt_of_eq i.isLt List.prod_singleton
      show (tabulate () y.shape _).entry i = _
      rw [entry_tabulate _ _ _ (by omega), if_pos hi]
      rfl
    rw [hlead]
    exact shrunk_smul hρ _
  · intro j hj hjsize
    have hentry : (tabulate () y.shape fun i =>
        if i < m then (shrinkFactor ρ ‖vec [m] y‖ : 𝕜) * y.entry i
        else (clipFactor ‖y.entry i‖ : 𝕜) * y.entry i).entry j = clipEntry (y.entry j) := by
      rw [entry_tabulate _ _ _ (by rwa [← size_eq]), if_neg (by omega)]
      rfl
    rw [hentry]
    exact ⟨rfl, clipped_clipEntry _⟩

/-- Two entries of which the first is about as large as the floor, the second just
outside the unit disc. -/
noncomputable def tinyPair : Tensor Unit ℝ :=
  tabulate () [2] fun i => if i = 0 then normFloor else 1 + normFloor

/-- The pair shrunk by less than the floor. -/
theorem dual_near_proximal_tinyPair :
    0 ≤ (normFloor / 2 : ℝ) ∧ 1 ≤ tinyPair.size
      ∧ ∃ z : Tensor Unit ℝ, (dual tinyPair (normFloor / 2) (.whole (1 : ℕ))
          : Except (Failure ℝ) _) = .ok z
        ∧ z.shape = [2]
        ∧ Shrunk (normFloor / 2) (vec [1] tinyPair) (vec [1] z)
        ∧ Clipped (1 + normFloor) (z.entry 1) := by
  have hρ : 0 ≤ (normFloor / 2 : ℝ) := (half_pos normFloor_pos).le
  have hsize : tinyPair.size = 2 := by
    unfold tinyPair
    rw [size_tabulate, List.prod_singleton]
  have hq : 1 ≤ tinyPair.size := by omega
  have hentry : tinyPair.entry 1 = 1 + normFloor := by
    unfold tinyPair
    rw [entry_tabulate _ _ _ (by rw [List.prod_singleton]; omega), if_neg one_ne_zero]
  obtain ⟨z, hz, hshape, hlead, htrail⟩ := dual_near_proximal tinyPair hρ hq
  rw [hsize] at hlead
  have hclipped := (htrail 1 (by omega) (by omega)).2
  rw [hentry] at hclipped
  exact ⟨hρ, hq, z, hz, hshape, hlead, hclipped⟩

end Prox

end PrimalDual
