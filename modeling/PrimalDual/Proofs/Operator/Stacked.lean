/-
  PrimalDual.Proofs.Operator.Stacked
  ──────────────────────────────────
  **STACKED OPERATORS.**

  If `A` acts as `T` and `B` as `U`, the stacked operator `[A; B]` acts as
  the linear map `column T U`, whose value is one vector laid after the other:

      column T U x = join (T x) (U x)
      lead q (join u v) is u,   trail q (join u v) is v

  so what is said elsewhere of the leading and the trailing block of `K x`
  is said of `A x` and `B x`.
-/
import PrimalDual.Proofs.Operator.Acts
import PrimalDual.Proofs.Prox.DualMap

namespace PrimalDual

open Tensor
open scoped InnerProductSpace InnerProduct

variable {𝕜 : Type} [RCLike 𝕜] {D : List ℕ} {m q : ℕ}

/-! ## §1. Joined vectors. -/

/-- The positions of two vectors laid one after the other. -/
def positions (m q : ℕ) : Fin [m].prod ⊕ Fin [q].prod ≃ Fin [m + q].prod :=
  finSumFinEquiv.trans (finCongr (by simp only [List.prod_singleton]))

/-- The second vector begins where the first one ends. -/
theorem positions_inr (i : Fin [q].prod) : (positions m q (.inr i) : ℕ) = m + i := by
  show [m].prod + (i : ℕ) = m + i
  rw [List.prod_singleton]

/-- After a position of the first vector there are at least `q` more. -/
theorem positions_inl_lt (i : Fin [m].prod) :
    (positions m q (.inl i) : ℕ) + q < [m + q].prod := by
  have hi : (i : ℕ) < m := i.isLt.trans_eq List.prod_singleton
  exact (Nat.add_lt_add_right hi q).trans_eq List.prod_singleton.symm

/-- After a position of the second vector there are fewer than `q`. -/
theorem positions_inr_not_lt (i : Fin [q].prod) :
    ¬ (positions m q (.inr i) : ℕ) + q < [m + q].prod := by
  have hvalue := positions_inr (m := m) i
  have hsize : [m + q].prod = m + q := List.prod_singleton
  omega

/-- `u` with `v` after it. -/
noncomputable def join (u : Space 𝕜 [m]) (v : Space 𝕜 [q]) : Space 𝕜 [m + q] :=
  WithLp.toLp 2 fun i => Sum.elim u v ((positions m q).symm i)

/-- The part of a vector before its last `q` entries. -/
noncomputable def upper (w : Space 𝕜 [m + q]) : Space 𝕜 [m] :=
  WithLp.toLp 2 fun i => w (positions m q (.inl i))

/-- The last `q` entries of a vector. -/
noncomputable def lower (w : Space 𝕜 [m + q]) : Space 𝕜 [q] :=
  WithLp.toLp 2 fun i => w (positions m q (.inr i))

omit [RCLike 𝕜] in
theorem join_inl (u : Space 𝕜 [m]) (v : Space 𝕜 [q]) (i : Fin [m].prod) :
    join u v (positions m q (.inl i)) = u i := by
  show Sum.elim u v ((positions m q).symm (positions m q (.inl i))) = u i
  rw [Equiv.symm_apply_apply, Sum.elim_inl]

omit [RCLike 𝕜] in
theorem join_inr (u : Space 𝕜 [m]) (v : Space 𝕜 [q]) (i : Fin [q].prod) :
    join u v (positions m q (.inr i)) = v i := by
  show Sum.elim u v ((positions m q).symm (positions m q (.inr i))) = v i
  rw [Equiv.symm_apply_apply, Sum.elim_inr]

omit [RCLike 𝕜] in
/-- The first block of two joined vectors is the first of them. -/
theorem upper_join (u : Space 𝕜 [m]) (v : Space 𝕜 [q]) : upper (join u v) = u := by
  ext i
  exact join_inl u v i

omit [RCLike 𝕜] in
/-- The last block of two joined vectors is the second of them. -/
theorem lower_join (u : Space 𝕜 [m]) (v : Space 𝕜 [q]) : lower (join u v) = v := by
  ext i
  exact join_inr u v i

omit [RCLike 𝕜] in
/-- Two vectors agree if both of their blocks do. -/
theorem ext_positions {w w' : Space 𝕜 [m + q]}
    (hl : ∀ i, w (positions m q (.inl i)) = w' (positions m q (.inl i)))
    (hr : ∀ i, w (positions m q (.inr i)) = w' (positions m q (.inr i))) : w = w' := by
  ext i
  obtain ⟨j, rfl⟩ := (positions m q).surjective i
  cases j with
  | inl j => exact hl j
  | inr j => exact hr j

/-- A sum over all positions is a sum over those of each block. -/
theorem sum_positions {M : Type*} [AddCommMonoid M] (f : Fin [m + q].prod → M) :
    ∑ i, f i = ∑ i, f (positions m q (.inl i)) + ∑ i, f (positions m q (.inr i)) := by
  rw [← (positions m q).sum_comp, Fintype.sum_sum_type]

/-- Inner products are taken block by block. -/
theorem inner_join (w : Space 𝕜 [m + q]) (u : Space 𝕜 [m]) (v : Space 𝕜 [q]) :
    ⟪w, join u v⟫_𝕜 = ⟪upper w, u⟫_𝕜 + ⟪lower w, v⟫_𝕜 := by
  rw [PiLp.inner_apply, PiLp.inner_apply, PiLp.inner_apply, sum_positions]
  simp only [join_inl, join_inr]
  rfl

theorem join_add (u u' : Space 𝕜 [m]) (v v' : Space 𝕜 [q]) :
    join (u + u') (v + v') = join u v + join u' v' := by
  apply ext_positions
  · intro i
    simp only [PiLp.add_apply, join_inl]
  · intro i
    simp only [PiLp.add_apply, join_inr]

theorem join_smul (c : 𝕜) (u : Space 𝕜 [m]) (v : Space 𝕜 [q]) :
    join (c • u) (c • v) = c • join u v := by
  apply ext_positions
  · intro i
    simp only [PiLp.smul_apply, join_inl]
  · intro i
    simp only [PiLp.smul_apply, join_inr]

/-! ## §2. The blocks of joined vectors. -/

/-- In the first block the leading part of a vector agrees with the vector. -/
theorem lead_inl (w : Space 𝕜 [m + q]) (i : Fin [m].prod) :
    lead q w (positions m q (.inl i)) = w (positions m q (.inl i)) := by
  rw [lead_apply, if_pos (positions_inl_lt i)]

/-- In the last block the leading part of a vector is zero. -/
theorem lead_inr (w : Space 𝕜 [m + q]) (i : Fin [q].prod) :
    lead q w (positions m q (.inr i)) = 0 := by
  rw [lead_apply, if_neg (positions_inr_not_lt i)]

/-- The leading part of joined vectors has zeros in place of the second one. -/
theorem lead_join (u : Space 𝕜 [m]) (v : Space 𝕜 [q]) : lead q (join u v) = join u 0 := by
  apply ext_positions
  · intro i
    rw [lead_inl, join_inl, join_inl]
  · intro i
    rw [lead_inr, join_inr]
    rfl

/-- The trailing part of joined vectors has zeros in place of the first one. -/
theorem trail_join (u : Space 𝕜 [m]) (v : Space 𝕜 [q]) : trail q (join u v) = join 0 v := by
  have hsplit := lead_add_trail q (join u v)
  rw [lead_join] at hsplit
  have hjoin : join u v = join u 0 + join 0 v := by
    rw [← join_add, add_zero, zero_add]
  exact add_left_cancel (hsplit.trans hjoin)

/-- The leading part of joined vectors is as long as the first one. -/
theorem norm_lead_join (u : Space 𝕜 [m]) (v : Space 𝕜 [q]) : ‖lead q (join u v)‖ = ‖u‖ := by
  rw [lead_join, EuclideanSpace.norm_eq, EuclideanSpace.norm_eq, sum_positions]
  simp only [join_inl, join_inr, PiLp.zero_apply, norm_zero, ne_eq, two_ne_zero,
    not_false_eq_true, zero_pow, Finset.sum_const_zero, add_zero]

/-- The trailing part of joined vectors is as long as the second one. -/
theorem norm_trail_join (u : Space 𝕜 [m]) (v : Space 𝕜 [q]) : ‖trail q (join u v)‖ = ‖v‖ := by
  rw [trail_join, EuclideanSpace.norm_eq, EuclideanSpace.norm_eq, sum_positions]
  simp only [join_inl, join_inr, PiLp.zero_apply, norm_zero, ne_eq, two_ne_zero,
    not_false_eq_true, zero_pow, Finset.sum_const_zero, zero_add]

/-- Zeros after a vector leave its length. -/
theorem norm_join_zero (u : Space 𝕜 [m]) : ‖(join u 0 : Space 𝕜 [m + q])‖ = ‖u‖ := by
  rw [← lead_join u 0, norm_lead_join]

/-- Joined vectors are at most as long as both together. -/
theorem norm_join_le (u : Space 𝕜 [m]) (v : Space 𝕜 [q]) : ‖join u v‖ ≤ ‖u‖ + ‖v‖ := by
  rw [← lead_add_trail q (join u v), ← norm_lead_join u v, ← norm_trail_join u v]
  exact norm_add_le _ _

/-- The dual map shrinks the leading vector and projects the entries of the trailing one. -/
theorem Prox.dualMap_join (ρ : ℝ) (u : Space 𝕜 [m]) (v : Space 𝕜 [q]) :
    dualMap ρ q (join u v) = join ((shrinkFactor ρ ‖u‖ : 𝕜) • u) (clip v) := by
  apply ext_positions
  · intro i
    rw [dualMap_apply, if_pos (positions_inl_lt i), norm_lead_join, join_inl, join_inl]
    rfl
  · intro i
    rw [dualMap_apply, if_neg (positions_inr_not_lt i), join_inr, join_inr]
    rfl

/-! ## §3. The operator. -/

/-- Two tensors laid one after the other hold the joined vectors. -/
theorem append_ofVec (u : Space 𝕜 [m]) (v : Space 𝕜 [q]) :
    ((ofVec [m] u).append (ofVec [q] v) : Except (Failure ℝ) _)
      = .ok (ofVec [m + q] (join u v)) := by
  refine (append_tabulate _ _).trans (congrArg Except.ok (tabulate_congr () [m + q] ?_))
  intro i hi
  rw [dif_pos hi]
  obtain ⟨j, hj⟩ := (positions m q).surjective ⟨i, hi⟩
  cases j with
  | inl j =>
    have hvalue : i = j := (congrArg Fin.val hj).symm
    have hlt : (j : ℕ) < m := j.isLt.trans_eq List.prod_singleton
    subst hvalue
    rw [if_pos hlt, dif_pos j.isLt, ← hj, join_inl]
  | inr j =>
    have hvalue : i = m + j := by
      rw [← positions_inr j, hj]
    subst hvalue
    rw [if_neg (by omega), ← hj, join_inr, dif_pos (by rw [Nat.add_sub_cancel_left]; exact j.isLt)]
    simp only [Nat.add_sub_cancel_left]

/-- The first `m` entries of a tensor hold the first block of its vector. -/
theorem leading_ofVec (w : Space 𝕜 [m + q]) :
    ((ofVec [m + q] w).leading m : Except (Failure ℝ) _) = .ok (ofVec [m] (upper w)) := by
  refine (leading_tabulate _ (by omega)).trans
    (congrArg Except.ok (tabulate_congr () [m] ?_))
  intro i hi
  have hlt : i < m := hi.trans_eq List.prod_singleton
  rw [dif_pos hi, dif_pos (by rw [List.prod_singleton]; omega)]
  rfl

/-- What follows the first `m` entries of a tensor holds the last block of its vector. -/
theorem trailing_ofVec (w : Space 𝕜 [m + q]) :
    ((ofVec [m + q] w).trailing m : Except (Failure ℝ) _) = .ok (ofVec [q] (lower w)) := by
  refine (trailing_tabulate _ (by omega)).trans ?_
  rw [Nat.add_sub_cancel_left]
  refine congrArg Except.ok (tabulate_congr () [q] ?_)
  intro i hi
  have hlt : i < q := hi.trans_eq List.prod_singleton
  rw [dif_pos hi, dif_pos (by rw [List.prod_singleton]; omega)]
  exact congrArg w (Fin.ext (positions_inr ⟨i, hi⟩).symm)

/-- The value of both maps, one after the other. -/
noncomputable def column (T : Space 𝕜 D →L[𝕜] Space 𝕜 [m]) (U : Space 𝕜 D →L[𝕜] Space 𝕜 [q]) :
    Space 𝕜 D →L[𝕜] Space 𝕜 [m + q] :=
  LinearMap.toContinuousLinearMap
    { toFun := fun x => join (T x) (U x)
      map_add' := fun x x' => by rw [map_add, map_add, join_add]
      map_smul' := fun c x => by rw [map_smul, map_smul, join_smul, RingHom.id_apply] }

variable {T : Space 𝕜 D →L[𝕜] Space 𝕜 [m]} {U : Space 𝕜 D →L[𝕜] Space 𝕜 [q]}

theorem column_apply (x : Space 𝕜 D) : column T U x = join (T x) (U x) := rfl

/-- **The adjoint of a column** adds up what the adjoints of its maps make of the blocks. -/
theorem column_adjoint (w : Space 𝕜 [m + q]) :
    ((column T U)†) w = (T†) (upper w) + (U†) (lower w) := by
  -- The adjoint is known by its inner products with every `x`.
  apply ext_inner_right 𝕜
  intro x
  rw [ContinuousLinearMap.adjoint_inner_left, column_apply, inner_join, inner_add_left,
    ContinuousLinearMap.adjoint_inner_left, ContinuousLinearMap.adjoint_inner_left]

/-- A vector read as a vector is unchanged. -/
theorem flatten_vector (n : ℕ) (v : Space 𝕜 [n]) : (ofVec [n] v).flatten = ofVec [n] v := by
  refine (flatten_tabulate _).trans ?_
  exact congrArg (fun k => tabulate () [k] _) List.prod_singleton

/-- An operator whose range is read as the vector that it is acts as before. -/
theorem Operator.acts_flattened {A : Operator (Except (Failure ℝ)) ℝ Unit 𝕜} (hA : A.Acts T) :
    (Operator.flattened A [m]).Acts T where
  forward x := by
    unfold Operator.forward
    rw [hA.forward]
    show Except.ok (ofVec [m] (T x)).flatten = _
    rw [flatten_vector]
  adjoint y := by
    have hreshape : ((ofVec [m] y).reshape [m] : Except (Failure ℝ) _) = .ok (ofVec [m] y) :=
      reshape_tabulate (s := [m]) _ rfl
    unfold Operator.adjoint
    simp only [hreshape, liftM, monadLift_self, bind, Except.bind, hA.adjoint]

/-- **The stacked operator acts block by block.** -/
theorem Operator.acts_stacked {A B : Operator (Except (Failure ℝ)) ℝ Unit 𝕜} (hA : A.Acts T)
    (hB : B.Acts U) : (Operator.stacked A B (.whole q)).Acts (column T U) where
  forward x := by
    unfold Operator.forward
    rw [hA.forward, hB.forward]
    show ((ofVec [m] (T x)).flatten.append (ofVec [q] (U x)).flatten : Except (Failure ℝ) _) = _
    rw [flatten_vector, flatten_vector, append_ofVec]
    rfl
  adjoint w := by
    -- The dual vector is cut `q` entries before its end, which is after the first `m`.
    have hcut : (cutBefore (ofVec [m + q] w).size (.whole q) : Except (Failure ℝ) ℤ)
        = .ok (m : ℤ) := by
      refine congrArg Except.ok ?_
      rw [size_ofVec, List.prod_singleton]
      omega
    unfold Operator.adjoint
    simp only [hcut, leading_ofVec, trailing_ofVec, hA.adjoint, hB.adjoint, liftM, monadLift, bind,
      Except.bind]
    rw [add_ofVec, column_adjoint]

/-! ## §4. The smallest stacked operator. -/

/-- The vector with one entry. -/
noncomputable def single (r : ℝ) : Space ℝ [1] := WithLp.toLp 2 fun _ => r

theorem norm_single (r : ℝ) : ‖single r‖ = |r| := by
  rw [EuclideanSpace.norm_eq]
  show √(∑ _i : Fin 1, ‖r‖ ^ 2) = |r|
  rw [Fin.sum_univ_one, Real.norm_eq_abs, Real.sqrt_sq (abs_nonneg r)]

/-- The vector with two entries, one in each block. -/
noncomputable def pair (a c : ℝ) : Space ℝ [1 + 1] := join (single a) (single c)

theorem pair_inl (a c : ℝ) (i) : pair a c (positions 1 1 (.inl i)) = a := join_inl _ _ i

theorem pair_inr (a c : ℝ) (i) : pair a c (positions 1 1 (.inr i)) = c := join_inr _ _ i

/-- A pair with zero in its last block has no trailing part. -/
theorem trail_pair_zero (a : ℝ) : trail 1 (pair a 0) = 0 := by
  unfold pair
  rw [trail_join]
  apply ext_positions
  · intro i
    exact join_inl _ _ i
  · intro i
    exact join_inr _ _ i

/-- The operator that repeats its argument, as both of its blocks. -/
noncomputable def twice : Space ℝ [1] →L[ℝ] Space ℝ [1 + 1] :=
  column (.id ℝ (Space ℝ [1])) (.id ℝ (Space ℝ [1]))

/-- A vector that is repeated is at most twice as long. -/
theorem norm_twice_le : ‖twice‖ ≤ 2 := by
  apply ContinuousLinearMap.opNorm_le_bound _ zero_le_two
  intro x
  rw [two_mul]
  exact norm_join_le x x

/-- The identity stacked on itself repeats its argument. -/
theorem acts_twice : (Operator.stacked .identity .identity (.whole 1)).Acts twice :=
  Operator.acts_stacked Operator.acts_identity Operator.acts_identity

end PrimalDual
