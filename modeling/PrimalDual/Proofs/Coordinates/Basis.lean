/-
  PrimalDual.Proofs.Coordinates.Basis
  ───────────────────────────────────
  **CHANGES OF BASIS.**

  Let `V` be unitary on the primal space and commute with the proximal map,
  `U` unitary on the space of the measurements, and `W` a permutation with
  phases on the range of the analysis operator.  The request with

      A' V = U A     B' V = W B     b' = U b     x₀' = V x₀     y₀' = (U, W) y₀

  is solved exactly when the request itself is, and what it returns, records
  and shows is the same in the other basis (`Solver.basis_equivariant`).

  The block of the measurements may be turned by any unitary map because the
  dual map only reads its norm.  The other block is clipped entry by entry,
  so there only entries of modulus 1 may stand, one in each row and column.
-/
import PrimalDual.Proofs.Coordinates.Runs
import PrimalDual.Proofs.Run.Solvable

namespace PrimalDual

open Tensor
open scoped InnerProduct

variable {𝕜 : Type} [RCLike 𝕜] {D S Q : List ℕ}

/-! ## §1. Requests in another basis. -/

section Definitions

variable (V : Space 𝕜 D ≃ₗᵢ[𝕜] Space 𝕜 D) (U : Space 𝕜 S ≃ₗᵢ[𝕜] Space 𝕜 S) (W : Monomial 𝕜 Q)

/-- The dual basis: `U` on the measurements, and after them `W`. -/
noncomputable def dualBasis :
    Space 𝕜 [S.prod + Q.prod] →ₗᵢ[𝕜] Space 𝕜 [S.prod + Q.prod] :=
  dualCoordinates U.toLinearIsometry W.toIsometry (size_vector Q) (size_vector Q)

/-- The request in another basis, where `A` and `B` stand for its operators. -/
noncomputable def Request.inBasis (A : Representation (Except (Failure ℝ)) ℝ Unit 𝕜)
    (B : Option (Representation (Except (Failure ℝ)) ℝ Unit 𝕜))
    (r : Request (Except (Failure ℝ)) ℝ Unit 𝕜) : Request (Except (Failure ℝ)) ℝ Unit 𝕜 :=
  { r with
    A := A
    b := r.b.move U.toLinearIsometry
    x0 := r.x0.map (Tensor.move V.toLinearIsometry)
    y0 := r.y0.map fun y => y.flatten.move (dualBasis U W)
    options := { r.options with analysis := B } }

/-- The data of the request have the shapes of the bases, `A` and `B` are its operators in the
other basis, and its other maps do not depend on the basis: the proximal map commutes with `V`,
and the observers fail in both or in neither.  Error values may differ, and are related by `E`. -/
structure Request.Equivariant (E : ℝ → ℝ → Prop)
    (A : Representation (Except (Failure ℝ)) ℝ Unit 𝕜)
    (B : Option (Representation (Except (Failure ℝ)) ℝ Unit 𝕜))
    (r : Request (Except (Failure ℝ)) ℝ Unit 𝕜) : Prop where
  A : r.A.Corresponds V.toLinearIsometry U.toLinearIsometry A
  analysis : Option.Rel (Representation.Corresponds V.toLinearIsometry W.toIsometry)
    r.options.analysis B
  q : r.options.q = Q.prod
  b : r.b.shape = S
  x0 : ∀ x ∈ r.x0, x.shape = D
  y0 : ∀ y ∈ r.y0, y.size = S.prod + Q.prod
  prox : ∀ t, 0 < t →
    Conjugates V.toLinearIsometry V.toLinearIsometry (r.prox · t) (r.prox · t)
  error : ∀ f ∈ r.options.error, ∀ x, x.shape = D →
    Agrees E (f x) (f (x.move V.toLinearIsometry))
  callback : ∀ f ∈ r.callback, ∀ k x, x.shape = D →
    Agrees (fun _ _ => True) (f k x) (f k (x.move V.toLinearIsometry))

end Definitions

/-! ## §2. Equivariance. -/

variable {V : Space 𝕜 D ≃ₗᵢ[𝕜] Space 𝕜 D} {U : Space 𝕜 S ≃ₗᵢ[𝕜] Space 𝕜 S} {W : Monomial 𝕜 Q}
variable {E : ℝ → ℝ → Prop} {A : Representation (Except (Failure ℝ)) ℝ Unit 𝕜}
variable {B : Option (Representation (Except (Failure ℝ)) ℝ Unit 𝕜)}
variable {r : Request (Except (Failure ℝ)) ℝ Unit 𝕜}

/-- The two requests correspond. -/
theorem Request.Equivariant.moved (h : r.Equivariant V U W E A B) (hvalid : r.options.Valid)
    (hnone : r.options.analysis = none → r.options.q = 0) :
    Request.Moved (Agrees.simulation ℝ) V.toLinearIsometry E U.toLinearIsometry W.toIsometry rfl rfl
      r (r.inBasis V U W A B) where
  A := h.A.agrees
  b := moved_move _ h.b
  epsilon := rfl
  delta := rfl
  prox t ht := (h.prox t ht).maps
  x0 := rel_option_image fun x hx => moved_move _ (h.x0 x hx)
  y0 := rel_option_image fun y hy => by
    have hshape : y.flatten.shape = [S.prod + Q.prod] := by
      rw [shape_flatten, h.y0 y hy]
    exact (moved_move (dualBasis U W) hshape).flatten_vector
  nIter := rfl
  kIter := rfl
  options := Options.moved_analysis (fun f hf x x' hx => by
    rw [hx.eq_move]
    exact h.error f hf x hx.shape) (isSome_of_rel h.analysis)
  analysis := rel_option_mono h.analysis fun _ _ hB => hB.agrees
  callback := rel_option_self fun f hf k x x' hx => by
    rw [hx.eq_move]
    exact h.callback f hf k x hx.shape
  q := h.q
  valid := hvalid
  analysis_none := hnone
  keepsClip := W.keepsClip

/-- **Equivariance.**  A request with a bound of the operator norm is solved exactly when it is
solved in another basis.  Then solution, recorded iterates and the arguments of the observers
are those in the other basis, and scale, rescaling factors and target errors are the same.  If
only the bases of the ranges change, no primal tensor does. -/
theorem Solver.basis_equivariant {settings : Settings (Except (Failure ℝ)) ℝ Unit 𝕜}
    (hsettings : settings.check = .ok r.options) {L : ℝ} (hL : r.options.bound = some L)
    (h : r.Equivariant V U W E A B) (env : Environment (Except (Failure ℝ)) ℝ Unit 𝕜) :
    Agrees (Solution.Related (Tensor.Moved V.toLinearIsometry) (Tensor.Moved (dualBasis U W)) E)
        (solve env r) (solve env (r.inBasis V U W A B))
      ∧ Agrees (fun out out' =>
          List.Forall₂ (Call.Related (Tensor.Moved V.toLinearIsometry)) out.2 out'.2)
        (watch env r) (watch env (r.inBasis V U W A B))
      ∧ (V = .refl 𝕜 (Space 𝕜 D) →
        Agrees (Solution.Related (· = ·) (Tensor.Moved (dualBasis U W)) E)
            (solve env r) (solve env (r.inBasis V U W A B))
          ∧ Agrees (fun out out' => out'.2 = out.2)
            (watch env r) (watch env (r.inBasis V U W A B))) := by
  have hmoved := h.moved (settings.check_valid hsettings) (settings.check_analysis hsettings)
  have hreport : ∀ event, Agrees (fun _ _ => True) (env.report event) (env.report event) :=
    fun event => .same _
  have hdraw : r.options.bound = none →
      Agrees (Tensor.Moved V.toLinearIsometry) (env.draw D ()) (env.draw D ()) := by
    intro hnone
    rw [hL] at hnone
    cases hnone
  obtain ⟨hsolve, hwatch⟩ := hmoved.related hreport hdraw (fun _ _ => id) fun _ _ => id
  refine ⟨hsolve, hwatch, ?_⟩
  -- In the old basis of the domain, a moved tensor is the tensor.
  rintro rfl
  obtain ⟨hsame, hcalls⟩ := hmoved.related (P := (· = ·)) hreport hdraw
    (fun _ _ hx => hx.eq_self.symm) fun _ _ => id
  refine ⟨hsame, hcalls.mono ?_⟩
  intro out out' _ hout
  have hequal : List.Forall₂ (· = ·) out.2 out'.2 := hout.imp fun _ _ h => h.eq
  rw [List.forall₂_eq_eq_eq] at hequal
  exact hequal.symm

/-! ## §3. Linear operators in another basis. -/

/-- Whatever acts as a linear map has a counterpart in every basis. -/
theorem Operator.Acts.corresponds {A : Operator (Except (Failure ℝ)) ℝ Unit 𝕜}
    {T : Space 𝕜 D →L[𝕜] Space 𝕜 S} (hA : A.Acts T) (V : Space 𝕜 D ≃ₗᵢ[𝕜] Space 𝕜 D)
    (U : Space 𝕜 S →ₗᵢ[𝕜] Space 𝕜 S) :
    A.Corresponds V.toLinearIsometry U (.ofLinear (transported V U T)) where
  forward := by
    refine ⟨fun x u hx hu => ?_, fun x hx => ?_⟩
    · rw [← ofVec_vec hx, hA.forward] at hu
      cases hu
      rfl
    · obtain ⟨v, rfl⟩ : ∃ v, x = ofVec D v := ⟨vec D x, (ofVec_vec hx).symm⟩
      have hvalue : transported V U T (V v) = U (T v) :=
        congrArg (fun z => U (T z)) (V.symm_apply_apply v)
      rw [hA.forward, ← (moved_ofVec V.toLinearIsometry v).eq_move]
      refine ((Operator.acts_ofLinear _).forward (V v)).trans ?_
      rw [hvalue]
      exact congrArg Except.ok (moved_ofVec U (T v)).eq_move
  adjoint := by
    refine ⟨fun y u hy hu => ?_, fun y hy => ?_⟩
    · rw [← ofVec_vec hy, hA.adjoint] at hu
      cases hu
      rfl
    · obtain ⟨w, rfl⟩ : ∃ w, y = ofVec S w := ⟨vec S y, (ofVec_vec hy).symm⟩
      have hvalue : ((transported V U T)†) (U w) = V ((T†) w) :=
        (adjoint_isometry_comp _ U w).trans (adjoint_comp_symm T V w)
      rw [hA.adjoint, ← (moved_ofVec U w).eq_move]
      refine ((Operator.acts_ofLinear _).adjoint (U w)).trans ?_
      rw [hvalue]
      exact congrArg Except.ok (moved_ofVec V.toLinearIsometry ((T†) w)).eq_move

/-! ## §4. An exchange. -/

/-- The entries in the opposite order. -/
noncomputable def reversal (s : List ℕ) : Space ℝ s ≃ₗᵢ[ℝ] Space ℝ s :=
  LinearIsometryEquiv.piLpCongrLeft 2 ℝ ℝ Fin.revPerm

theorem reversal_apply (v : Space ℝ D) (i : Fin D.prod) : reversal D v i = v i.rev := rfl

/-- The entries in the opposite order, with alternating signs. -/
noncomputable def Monomial.alternating (s : List ℕ) : Monomial ℝ s where
  perm := Fin.revPerm
  phase i := (-1) ^ (i : ℕ)
  norm_phase i := by
    rw [norm_pow, norm_neg, norm_one, one_pow]

/-- The small request for pairs, the second entry of which is measured with the weight 2. -/
noncomputable abbrev pairRequest : Request (Except (Failure ℝ)) ℝ Unit ℝ :=
  sampleRequest [2] (.ofLinear (graded [2]))

/-- The request in the basis `V` of the domain: the measurements are exchanged, and so are the
entries of the range of the analysis operator, one of them with the other sign. -/
noncomputable def exchangedRequest (V : Space ℝ [2] ≃ₗᵢ[ℝ] Space ℝ [2]) :
    Request (Except (Failure ℝ)) ℝ Unit ℝ :=
  pairRequest.inBasis V (reversal [2]) (.alternating [2])
    (.operator (.ofLinear (transported V (reversal [2]).toLinearIsometry (graded [2]))))
    (some (.operator (.ofLinear (transported V (Monomial.alternating [2]).toIsometry (.id ℝ _)))))

theorem sampleRequest_equivariant {A : Operator (Except (Failure ℝ)) ℝ Unit ℝ}
    {T : Space ℝ D →L[ℝ] Space ℝ D} (hA : A.Acts T) (V U : Space ℝ D ≃ₗᵢ[ℝ] Space ℝ D)
    (W : Monomial ℝ D) : (sampleRequest D A).Equivariant V U W (· = ·)
      (.operator (.ofLinear (transported V U.toLinearIsometry T)))
      (some (.operator (.ofLinear (transported V W.toIsometry (.id ℝ _))))) where
  A := ⟨A, _, rfl, rfl, hA.corresponds V U.toLinearIsometry⟩
  analysis := .some ⟨.identity, _, rfl, rfl, Operator.acts_identity.corresponds V W.toIsometry⟩
  q := rfl
  b := rfl
  x0 := by
    rintro _ ⟨⟩
    rfl
  y0 := by
    rintro _ ⟨⟩
    rw [size_ofVec, List.prod_singleton]
  prox t _ := by
    refine ⟨?_, fun x _ => rfl⟩
    intro x u hx hu
    cases hu
    exact hx
  error f hf x hx := by
    cases hf
    show Agrees _ x.normValue (x.move V.toLinearIsometry).normValue
    rw [(moved_move V.toLinearIsometry hx).normValue]
    exact .refl _
  callback f hf k x hx := by
    cases hf
    exact .ok trivial

/-- The entries of a dual vector that belong to the measurements. -/
theorem entry_dual_first {q : ℕ} {hQ : Q.prod = q} (u : Space 𝕜 S) (w : Space 𝕜 Q) {i : ℕ}
    (hi : i < S.prod) :
    (ofVec [S.prod + q] (join (flatten rfl u) (flatten hQ w))).entry i = u ⟨i, hi⟩ := by
  have happend := append_ofVec (flatten rfl u : Space 𝕜 [S.prod]) (flatten hQ w)
  rw [← flatten_ofVec, ← flatten_ofVec] at happend
  obtain ⟨-, hfirst, -⟩ := append_ok (shape_flatten _) (shape_flatten _) happend
  rw [hfirst i (by rwa [size_flatten, size_ofVec])]
  exact entry_ofVec u hi

/-- The entries of a dual vector that belong to the range of the analysis operator. -/
theorem entry_dual_last {q : ℕ} {hQ : Q.prod = q} (u : Space 𝕜 S) (w : Space 𝕜 Q) {i : ℕ}
    (hi : i < Q.prod) :
    (ofVec [S.prod + q] (join (flatten rfl u) (flatten hQ w))).entry (S.prod + i) = w ⟨i, hi⟩ := by
  have happend := append_ofVec (flatten rfl u : Space 𝕜 [S.prod]) (flatten hQ w)
  rw [← flatten_ofVec, ← flatten_ofVec] at happend
  obtain ⟨-, -, hlast⟩ := append_ok (shape_flatten _) (shape_flatten _) happend
  rw [size_flatten, size_ofVec, size_flatten, size_ofVec] at hlast
  rw [hlast i hi]
  exact entry_ofVec w hi

/-- Both blocks of a dual vector of the request are exchanged within themselves. -/
theorem entries_exchanged {y y' : Tensor Unit ℝ}
    (h : Tensor.Moved (dualBasis (reversal [2]) (.alternating [2])) y y') :
    y'.entry 0 = y.entry 1 ∧ y'.entry 1 = y.entry 0 ∧ y'.entry 2 = y.entry 3
      ∧ y'.entry 3 = -y.entry 2 := by
  obtain ⟨v, rfl, rfl⟩ := h
  obtain ⟨u, w, rfl⟩ := exists_join (S := [2]) (size_vector [2]) v
  have hdual := dualCoordinates_join (reversal [2]).toLinearIsometry
    (Monomial.alternating [2]).toIsometry (size_vector [2]) (size_vector [2]) u w
  unfold dualBasis
  rw [hdual]
  have hfirst : ∀ (u w : Space ℝ [2]) (i : Fin [2].prod), (ofVec [[2].prod + [2].prod]
      (join (flatten rfl u) (flatten (size_vector [2]) w))).entry i = u i :=
    fun u w i => entry_dual_first u w i.isLt
  have hlast : ∀ (u w : Space ℝ [2]) (i : Fin [2].prod), (ofVec [[2].prod + [2].prod]
      (join (flatten rfl u) (flatten (size_vector [2]) w))).entry (2 + i) = w i :=
    fun u w i => entry_dual_last u w i.isLt
  -- In the first block the two entries change places; in the second the later one turns its sign.
  have hzero := hfirst u w ⟨0, by decide⟩
  have hone := hfirst u w ⟨1, by decide⟩
  have htwo := hlast u w ⟨0, by decide⟩
  have hthree := hlast u w ⟨1, by decide⟩
  refine ⟨?_, ?_, ?_, ?_⟩
  · exact (hfirst _ _ ⟨0, by decide⟩).trans ((reversal_apply u _).trans hone.symm)
  · exact (hfirst _ _ ⟨1, by decide⟩).trans ((reversal_apply u _).trans hzero.symm)
  · refine (hlast _ _ ⟨0, by decide⟩).trans (Eq.trans ?_ hthree.symm)
    show (-1 : ℝ) ^ 0 * w ⟨1, by decide⟩ = w ⟨1, by decide⟩
    rw [pow_zero, one_mul]
  · refine (hlast _ _ ⟨1, by decide⟩).trans (Eq.trans ?_ (congrArg Neg.neg htwo.symm))
    show (-1 : ℝ) ^ 1 * w ⟨0, by decide⟩ = -w ⟨0, by decide⟩
    rw [pow_one, neg_one_mul]

/-- The request with its measurements exchanged, and with the entries of its domain exchanged as
well. -/
theorem Solver.basis_equivariant_exchange :
    pairRequest.options.settings.check = .ok pairRequest.options
      ∧ pairRequest.options.bound = some 2 ∧ ∃ sol sol' sol'',
        solve quietEnvironment pairRequest = .ok sol
        ∧ solve quietEnvironment (exchangedRequest (.refl ℝ (Space ℝ [2]))) = .ok sol'
        ∧ solve quietEnvironment (exchangedRequest (reversal [2])) = .ok sol''
        ∧ sol'.x = sol.x ∧ sol''.x = sol.x.move (reversal [2]).toLinearIsometry
        ∧ sol''.y = sol'.y ∧ sol'.y.entry 0 = sol.y.entry 1 ∧ sol'.y.entry 1 = sol.y.entry 0
        ∧ sol'.y.entry 2 = sol.y.entry 3 ∧ sol'.y.entry 3 = -sol.y.entry 2 := by
  have hpos : 0 < [2].prod := by decide
  have hcheck : pairRequest.options.settings.check = .ok pairRequest.options :=
    sampleRequest_check hpos
  have hacts := Operator.acts_ofLinear (graded [2])
  obtain ⟨sol, hsol⟩ :=
    (sampleRequest_linear hpos hacts).solve_returns quietEnvironment_receptive
  obtain ⟨-, -, hranges⟩ := basis_equivariant hcheck rfl
    (sampleRequest_equivariant hacts (.refl ℝ (Space ℝ [2])) (reversal [2]) (.alternating [2]))
    quietEnvironment
  obtain ⟨hdomain, -, -⟩ := basis_equivariant hcheck rfl
    (sampleRequest_equivariant hacts (reversal [2]) (reversal [2]) (.alternating [2]))
    quietEnvironment
  obtain ⟨sol', hsol', h'⟩ := (hranges rfl).1.returns hsol
  obtain ⟨sol'', hsol'', h''⟩ := hdomain.returns hsol
  have hy : sol''.y = sol'.y := h''.y.eq_move.trans h'.y.eq_move.symm
  exact ⟨hcheck, rfl, sol, sol', sol'', hsol, hsol', hsol'', h'.x.symm, h''.x.eq_move, hy,
    entries_exchanged h'.y⟩

end PrimalDual
