/-
  PrimalDual.Proofs.Coordinates.Blocks
  ────────────────────────────────────
  **COORDINATES OF THE TWO BLOCKS.**

  The dual map treats the leading block as one Euclidean vector and each
  entry of the trailing block by its magnitude.  So it may be computed in
  other coordinates, as long as the blocks are not mixed:

      leading block      any linear isometry `U`
      trailing block     a permutation times entries of modulus 1 (`Monomial`)
      both               `blocks U W`, one block after the other

  `dualMap_blocks` says that the dual map and these coordinates commute.
-/
import PrimalDual.Proofs.Coordinates.Moved
import PrimalDual.Proofs.Operator.Stacked

namespace PrimalDual

open Tensor

variable {𝕜 : Type} [RCLike 𝕜] {s t : List ℕ} {m n p q : ℕ}

/-! ## §1. Both blocks. -/

omit [RCLike 𝕜] in
/-- A vector is joined from its blocks. -/
theorem join_upper_lower (w : Space 𝕜 [m + q]) : join (upper w) (lower w) = w :=
  ext_positions (fun i => join_inl _ _ i) fun i => join_inr _ _ i

/-- The theorem of Pythagoras for joined vectors. -/
theorem norm_join (u : Space 𝕜 [m]) (v : Space 𝕜 [q]) : ‖join u v‖ = √(‖u‖ ^ 2 + ‖v‖ ^ 2) := by
  rw [← Real.sqrt_sq (norm_nonneg (join u v)), norm_sq_eq_blocks q, norm_lead_join,
    norm_trail_join]

/-- The coordinates of two vectors, one laid after the other. -/
noncomputable def blocks (U : Space 𝕜 [m] →ₗᵢ[𝕜] Space 𝕜 [n])
    (W : Space 𝕜 [p] →ₗᵢ[𝕜] Space 𝕜 [q]) : Space 𝕜 [m + p] →ₗᵢ[𝕜] Space 𝕜 [n + q] where
  toFun w := join (U (upper w)) (W (lower w))
  map_add' w w' := by
    rw [← join_add, ← U.map_add, ← W.map_add]
    rfl
  map_smul' c w := by
    rw [RingHom.id_apply, ← join_smul, ← U.map_smul, ← W.map_smul]
    rfl
  norm_map' w := by
    show ‖join (U (upper w)) (W (lower w))‖ = ‖w‖
    rw [norm_join, U.norm_map, W.norm_map, ← norm_join, join_upper_lower]

variable {U : Space 𝕜 [m] →ₗᵢ[𝕜] Space 𝕜 [n]} {W : Space 𝕜 [p] →ₗᵢ[𝕜] Space 𝕜 [q]}

/-- Joined vectors are moved block by block. -/
theorem blocks_join (u : Space 𝕜 [m]) (v : Space 𝕜 [p]) :
    blocks U W (join u v) = join (U u) (W v) := by
  show join (U (upper (join u v))) (W (lower (join u v))) = _
  rw [upper_join, lower_join]

/-- Without a trailing block the coordinates are those of the leading one. -/
theorem blocks_zero (U : Space 𝕜 [m] →ₗᵢ[𝕜] Space 𝕜 [n]) (W : Space 𝕜 [0] →ₗᵢ[𝕜] Space 𝕜 [0]) :
    (blocks U W : Space 𝕜 [m + 0] →ₗᵢ[𝕜] Space 𝕜 [n + 0]) = U := by
  have hupper : ∀ w : Space 𝕜 [m + 0], upper w = (w : Space 𝕜 [m]) := fun w => rfl
  refine LinearIsometry.ext fun w => ext_positions (fun i => ?_) fun i => ?_
  · show join (U (upper w)) (W (lower w)) (positions n 0 (.inl i)) = _
    rw [join_inl, hupper]
    rfl
  · exact absurd i.isLt (by simp)

namespace Tensor

variable {x x' y y' : Tensor Unit 𝕜}

/-- Flattening leaves vectors as they are. -/
theorem Moved.flatten_vector (h : Moved U x x') : Moved U x.flatten x'.flatten := by
  obtain ⟨v, rfl, rfl⟩ := h
  rw [PrimalDual.flatten_vector, PrimalDual.flatten_vector]
  exact moved_ofVec U v

/-- Vectors are joined in either coordinates. -/
theorem Moved.append (hx : Moved U x x') (hy : Moved W y y') :
    Agrees (Moved (blocks U W)) (x.append y : Except (Failure ℝ) _) (x'.append y') := by
  obtain ⟨u, rfl, rfl⟩ := hx
  obtain ⟨v, rfl, rfl⟩ := hy
  rw [append_ofVec, append_ofVec, ← blocks_join]
  exact .ok (moved_ofVec _ _)

/-- The cut before the last block falls between the blocks of either coordinates. -/
theorem Moved.leading (h : Moved (blocks U W) x x') :
    Agrees (Moved U) (x.leading m : Except (Failure ℝ) _) (x'.leading n) := by
  obtain ⟨w, rfl, rfl⟩ := h
  rw [leading_ofVec, leading_ofVec]
  refine .ok ⟨upper w, rfl, ?_⟩
  rw [← join_upper_lower w, blocks_join, upper_join, upper_join]

theorem Moved.trailing (h : Moved (blocks U W) x x') :
    Agrees (Moved W) (x.trailing m : Except (Failure ℝ) _) (x'.trailing n) := by
  obtain ⟨w, rfl, rfl⟩ := h
  rw [trailing_ofVec, trailing_ofVec]
  refine .ok ⟨lower w, rfl, ?_⟩
  rw [← join_upper_lower w, blocks_join, lower_join, lower_join]

end Tensor

/-! ## §2. The dual map. -/

namespace Prox

/-- The coordinates act on each entry by its magnitude. -/
def KeepsClip (W : Space 𝕜 s →ₗᵢ[𝕜] Space 𝕜 t) : Prop := ∀ v, clip (W v) = W (clip v)

/-- The coordinates commute with the dual map. -/
structure Respects (q : ℕ) (Z : Space 𝕜 s →ₗᵢ[𝕜] Space 𝕜 t) : Prop where
  le : q ≤ s.prod
  le' : q ≤ t.prod
  dualMap : ∀ ρ v, Prox.dualMap ρ q (Z v) = Z (Prox.dualMap ρ q v)

/-- **The dual map in other coordinates.** -/
theorem respects_blocks {W : Space 𝕜 [q] →ₗᵢ[𝕜] Space 𝕜 [q]} (hW : KeepsClip W) :
    Respects q (blocks U W) where
  le := by
    rw [List.prod_singleton]
    omega
  le' := by
    rw [List.prod_singleton]
    omega
  dualMap ρ w := by
    rw [← join_upper_lower w, blocks_join, dualMap_join, dualMap_join, blocks_join, U.norm_map, hW,
      U.map_smul]

/-- **The dual map of a moved vector is the moved dual map**, if the coordinates respect it. -/
theorem Respects.dual {Z : Space 𝕜 s →ₗᵢ[𝕜] Space 𝕜 t} (h : Respects q Z) {y y' : Tensor Unit 𝕜}
    (hy : Moved Z y y') (ρ : ℝ) : Agrees (Moved Z)
      (Prox.dual y ρ (.whole q) : Except (Failure ℝ) _) (Prox.dual y' ρ (.whole q)) := by
  obtain ⟨v, rfl, rfl⟩ := hy
  rw [dual_ofVec ρ h.le, dual_ofVec ρ h.le', h.dualMap]
  exact .ok (moved_ofVec Z _)

/-- Entries may be read in another shape. -/
theorem clip_reindex (h : s.prod = t.prod) (v : Space 𝕜 s) :
    clip (reindex h v) = reindex h (clip v) := rfl

theorem KeepsClip.flat (hs : s.prod = m) (ht : t.prod = n) {W : Space 𝕜 s →ₗᵢ[𝕜] Space 𝕜 t}
    (h : KeepsClip W) : KeepsClip (PrimalDual.flat hs ht W) := by
  intro w
  obtain ⟨v, rfl⟩ := (flatten hs).surjective w
  have hflatten : ∀ {u : List ℕ} {k : ℕ} (hu : u.prod = k) (z : Space 𝕜 u),
      clip (flatten hu z) = flatten hu (clip z) := fun hu z => clip_reindex _ z
  rw [flat_flatten, hflatten, hflatten, flat_flatten, h]

end Prox

/-! ## §3. Permutations with phases. -/

/-- A permutation of the entries of a shape, times entries of modulus 1. -/
structure Monomial (𝕜 : Type) [RCLike 𝕜] (s : List ℕ) where
  perm : Equiv.Perm (Fin s.prod)
  phase : Fin s.prod → 𝕜
  norm_phase : ∀ i, ‖phase i‖ = 1

namespace Monomial

/-- The coordinates: entry `i` is the entry at `perm i`, times `phase i`. -/
noncomputable def toIsometry (W : Monomial 𝕜 s) : Space 𝕜 s →ₗᵢ[𝕜] Space 𝕜 s where
  toFun v := WithLp.toLp 2 fun i => W.phase i * v (W.perm i)
  map_add' u v := by
    ext i
    exact mul_add _ _ _
  map_smul' c v := by
    ext i
    exact mul_left_comm _ _ _
  norm_map' v := by
    show ‖(WithLp.toLp 2 fun i => W.phase i * v (W.perm i) : Space 𝕜 s)‖ = ‖v‖
    rw [EuclideanSpace.norm_eq, EuclideanSpace.norm_eq,
      ← Equiv.sum_comp W.perm fun i => ‖v i‖ ^ 2]
    refine congrArg Real.sqrt (Finset.sum_congr rfl ?_)
    intro i _
    show ‖W.phase i * v (W.perm i)‖ ^ 2 = _
    rw [norm_mul, W.norm_phase, one_mul]

theorem toIsometry_apply (W : Monomial 𝕜 s) (v : Space 𝕜 s) (i : Fin s.prod) :
    W.toIsometry v i = W.phase i * v (W.perm i) := rfl

/-- An exchange of entries with phases keeps the magnitudes that are clipped. -/
theorem keepsClip (W : Monomial 𝕜 s) : Prox.KeepsClip W.toIsometry := by
  intro v
  ext i
  rw [Prox.clip_apply, toIsometry_apply, toIsometry_apply, Prox.clip_apply, norm_mul, W.norm_phase,
    one_mul, mul_left_comm]

end Monomial

end PrimalDual
