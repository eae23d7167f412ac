/-
  PrimalDual.Proofs.Run.Solvable
  ──────────────────────────────
  **REQUESTS OF LINEAR PROBLEMS ARE SOLVED.**

  Let the operators of a request act as linear maps `T` and `U` between
  tensors of any shapes, let the measurements not vanish and the data have
  the shapes of these maps, and let no map of the caller fail.  Then nothing
  is refused while the problem is made ready (`Linear.prepare_returns`): its
  stacked operator acts as

      x ↦ (T x, U x),   both values read as vectors

  and from there on its restarts return, so it is solved
  (`Linear.solve_returns`).
-/
import PrimalDual.Proofs.Coordinates.Solve
import PrimalDual.Proofs.Run.Returns

namespace PrimalDual

open Tensor

variable {𝕜 : Type} [RCLike 𝕜] {D S Q : List ℕ}

/-! ## §1. Ranges read as vectors. -/

/-- An operator whose range is read as a vector acts as before, followed by the reading. -/
theorem Operator.acts_vectorOf {A : Operator (Except (Failure ℝ)) ℝ Unit 𝕜}
    {T : Space 𝕜 D →L[𝕜] Space 𝕜 S} (hA : A.Acts T) :
    (Operator.flattened A (S.map Int.ofNat)).Acts ((vectorOf S).toContinuousLinearMap ∘L T) where
  forward x := by
    show (A.forward (ofVec D x) >>= fun u => .ok u.flatten) = _
    rw [hA.forward]
    exact congrArg Except.ok (flatten_ofVec (size_vector S) (T x))
  adjoint y := by
    obtain ⟨u, rfl⟩ := (flatten (size_vector S) : Space 𝕜 S ≃ₗᵢ[𝕜] _).surjective y
    have hback := adjoint_isometry_comp T (vectorOf S) u
    show ((ofVec [S.prod] (flatten (size_vector S) u)).reshape (S.map Int.ofNat) >>= A.adjoint) = _
    rw [reshape_ofVec (size_vector S), LinearIsometryEquiv.symm_apply_apply]
    exact (hA.adjoint u).trans (congrArg (fun v => Except.ok (ofVec D v)) hback.symm)

/-! ## §2. Requests. -/

/-- A request whose operators act as `T` and `U`, with data of their shapes, and in which no map
fails. -/
structure Request.Linear (T : Space 𝕜 D →L[𝕜] Space 𝕜 S) (U : Space 𝕜 D →L[𝕜] Space 𝕜 Q)
    (r : Request (Except (Failure ℝ)) ℝ Unit 𝕜) : Prop where
  A : ∃ A, r.A.toOperator = .ok A ∧ A.Acts T
  analysis : ∃ rep B, r.options.analysis = some rep ∧ rep.toOperator = .ok B ∧ B.Acts U
  q : r.options.q = Q.prod
  b : r.b.shape = S
  b_ne_zero : vec S r.b ≠ 0
  x0 : ∀ x ∈ r.x0, x.shape = D
  y0 : ∀ y ∈ r.y0, y.size = S.prod + Q.prod
  nIter : 1 ≤ r.nIter
  kIter : 1 ≤ r.kIter
  epsilon : 0 ≤ r.epsilon
  delta : 0 ≤ r.delta
  valid : r.options.Valid
  bound : ∃ L, r.options.bound = some L
  prox : ∀ t v, ∃ w, r.prox (ofVec D v) t = .ok (ofVec D w)
  error : ∀ f ∈ r.options.error, ∀ x, ∃ e, f x = .ok e
  callback : ∀ f ∈ r.callback, ∀ k x, f k x = .ok ()

namespace Request.Linear

variable {T : Space 𝕜 D →L[𝕜] Space 𝕜 S} {U : Space 𝕜 D →L[𝕜] Space 𝕜 Q}
variable {r : Request (Except (Failure ℝ)) ℝ Unit 𝕜} (h : r.Linear T U)
include h

/-- The operator of the measurements acts as `T`, read as a vector. -/
theorem measurement_returns : ∃ K, Solver.measurement r = .ok K
    ∧ K.Acts ((vectorOf S).toContinuousLinearMap ∘L T) := by
  obtain ⟨A, hA, hacts⟩ := h.A
  refine ⟨.flattened A (S.map Int.ofNat), ?_, Operator.acts_vectorOf hacts⟩
  unfold Solver.measurement
  rw [hA, h.b]
  rfl

/-- The measurements, as a vector. -/
theorem flatten_b : r.b.flatten = ofVec [S.prod] (vectorOf S (vec S r.b)) := by
  have hb : ofVec S (vec S r.b) = r.b := ofVec_vec h.b
  have hflatten := flatten_ofVec (size_vector S) (vec S r.b)
  rwa [hb] at hflatten

/-- The primal start has the shape of the domain, given or not. -/
theorem primalStart_returns {K : Operator (Except (Failure ℝ)) ℝ Unit 𝕜}
    {V : Space 𝕜 D →L[𝕜] Space 𝕜 [S.prod]} (hK : K.Acts V) :
    ∃ x, Solver.primalStart K r.b.flatten r.x0 = .ok (ofVec D x) := by
  cases hx0 : r.x0 with
  | some x =>
    have hshape : ofVec D (vec D x) = x := ofVec_vec (h.x0 x hx0)
    refine ⟨vec D x, ?_⟩
    rw [hshape]
    rfl
  | none =>
    refine ⟨0, ?_⟩
    show (K.adjoint r.b.flatten >>= fun u => .ok u.zerosLike) = _
    rw [h.flatten_b, hK.adjoint]
    exact congrArg Except.ok (zerosLike_ofVec _)

/-- The stacked operator acts as both maps, and its target are the measurements and zeros. -/
theorem stackAnalysis_returns {K : Operator (Except (Failure ℝ)) ℝ Unit 𝕜}
    {V : Space 𝕜 D →L[𝕜] Space 𝕜 [S.prod]} (hK : K.Acts V) (x : Space 𝕜 D) :
    ∃ K', Solver.stackAnalysis K r.b.flatten (ofVec D x) r.options.q r.options.analysis
        = .ok (K', ofVec [S.prod + Q.prod] (join (vectorOf S (vec S r.b)) 0))
      ∧ K'.Acts (column V ((vectorOf Q).toContinuousLinearMap ∘L U)) := by
  obtain ⟨rep, B, hrep, hB, hacts⟩ := h.analysis
  have hzeros : (Tensor.zeros () [Q.prod] : Tensor Unit 𝕜) = ofVec [Q.prod] 0 :=
    zerosLike_ofVec (0 : Space 𝕜 [Q.prod])
  refine ⟨.stacked K (.flattened B (Q.map Int.ofNat)) (.whole Q.prod), ?_,
    Operator.acts_stacked hK (Operator.acts_vectorOf hacts)⟩
  rw [hrep, h.q, h.flatten_b]
  refine Solver.stackAnalysis_eq_ok.2 ⟨B, ofVec Q (U x), hB, hacts.forward x, ?_, ?_⟩
  · exact Operator.stack_whole rfl K B
  · show (ofVec [S.prod] _).append (Tensor.zeros () [Q.prod]) = _
    rw [hzeros]
    exact append_ofVec _ _

/-- The dual start has an entry for each entry of both ranges, given or not. -/
theorem size_dualStart (b : Space 𝕜 [S.prod + Q.prod]) :
    (r.y0.getD (ofVec [S.prod + Q.prod] b).zerosLike).size = S.prod + Q.prod := by
  cases hy0 : r.y0 with
  | some y => exact h.y0 y hy0
  | none =>
    show (ofVec [S.prod + Q.prod] b).zerosLike.size = S.prod + Q.prod
    rw [zerosLike_ofVec, size_ofVec, List.prod_singleton]

/-- **Nothing is refused while the problem is made ready.** -/
theorem prepare_returns (env : Environment (Except (Failure ℝ)) ℝ Unit 𝕜) :
    ∃ ready, Solver.prepare env r = .ok ready
      ∧ ready.schedule.Linear (column ((vectorOf S).toContinuousLinearMap ∘L T)
          ((vectorOf Q).toContinuousLinearMap ∘L U))
      ∧ ready.start.Fits D [S.prod + Q.prod] := by
  obtain ⟨L, hL⟩ := h.bound
  obtain ⟨K, hK, hacts⟩ := h.measurement_returns
  obtain ⟨x, hx⟩ := h.primalStart_returns hacts
  obtain ⟨K', hK', hacts'⟩ := h.stackAnalysis_returns hacts x
  -- The padded measurements are not zero, so there is a norm to divide by.
  set b : Space 𝕜 [S.prod + Q.prod] := join (vectorOf S (vec S r.b)) 0 with hb
  have hpos : 0 < ‖b‖ := by
    rw [hb, norm_join_zero, LinearIsometry.norm_map]
    exact norm_pos_iff.2 h.b_ne_zero
  have hbound : Solver.ensureBound env K' (ofVec D x) r.options = .ok r.options :=
    Solver.ensureBound_some env K' (ofVec D x) hL
  refine ⟨_, Solver.prepare_eq_ok.2 ⟨K, ofVec D x, (K', ofVec _ b), r.options,
    Solver.checkRequest_ok h.nIter h.kIter h.epsilon h.delta, hK, hx, hK', hbound,
    Solver.normalise_ofVec (norm_pos_iff.1 hpos)⟩, ?_, ?_⟩
  · exact {
      valid := h.valid
      bound := ⟨L, hL⟩
      acts := hacts'
      prox := h.prox
      b := shape_divBy _ _
      type := ⟨_, OutputType.find_number _⟩
      kIter_pos := h.kIter
      delta_nonneg := div_nonneg h.delta hpos.le
      error := h.error
      callback := h.callback }
  · refine ⟨shape_divBy _ _, ?_, ?_⟩
    · show ((r.y0.getD (ofVec [S.prod + Q.prod] b).zerosLike).flatten.divBy ‖b‖).shape = _
      rw [shape_divBy, shape_flatten, h.size_dualStart]
    · show 0 < r.options.C2 * 1
      rw [mul_one]
      exact h.valid.C2_pos

/-- **A request of a linear problem is solved.** -/
theorem solve_returns {env : Environment (Except (Failure ℝ)) ℝ Unit 𝕜} (henv : env.Receptive) :
    ∃ sol, Solver.solve env r = .ok sol := by
  obtain ⟨ready, hready, hlinear, hfits⟩ := h.prepare_returns env
  exact Solver.solve_returns henv hready hlinear hfits

end Request.Linear

/-! ## §3. Requests with an identity for their analysis operator. -/

/-- The small request. -/
theorem unitRequest_linear :
    unitRequest.Linear (.id ℝ (Space ℝ [1])) (.id ℝ (Space ℝ [1])) where
  A := ⟨.identity, rfl, Operator.acts_identity⟩
  analysis := ⟨.operator .identity, .identity, rfl, rfl, Operator.acts_identity⟩
  q := rfl
  b := rfl
  b_ne_zero := by
    show vec [1] (ofVec [1] (single 2)) ≠ 0
    rw [vec_ofVec, ← norm_ne_zero_iff, norm_single, abs_two]
    exact two_ne_zero
  x0 x hx := by
    cases hx
    rfl
  y0 y hy := by
    cases hy
    rfl
  nIter := by decide
  kIter := by decide
  epsilon := zero_le_one
  delta := le_rfl
  valid := unitPrepared_linear.valid
  bound := ⟨2, rfl⟩
  prox t v := ⟨v, rfl⟩
  error := unitPrepared_linear.error
  callback := unitPrepared_linear.callback

/-- The entries 1, 2, 3, … in row-major order. -/
noncomputable def ramp (s : List ℕ) : Space ℝ s := WithLp.toLp 2 fun i => (i : ℕ) + 1

theorem ramp_ne_zero {s : List ℕ} (hs : 0 < s.prod) : ramp s ≠ 0 := by
  intro hzero
  have hfirst := congrArg (fun v : Space ℝ s => v ⟨0, hs⟩) hzero
  have hone : (((0 : ℕ) : ℝ) + 1) = 0 := hfirst
  norm_num at hone

/-- The small request for tensors of a shape, measured by an operator that keeps it. -/
noncomputable def sampleRequest (s : List ℕ) (A : Operator (Except (Failure ℝ)) ℝ Unit ℝ) :
    Request (Except (Failure ℝ)) ℝ Unit ℝ :=
  { unitRequest with
    A := .operator A
    b := ofVec s (ramp s)
    x0 := some (ofVec s (-ramp s))
    y0 := some (ofVec [s.prod + s.prod] (ramp [s.prod + s.prod]))
    options := { unitRequest.options with q := s.prod } }

section Sample

variable {s : List ℕ} {A : Operator (Except (Failure ℝ)) ℝ Unit ℝ} (hs : 0 < s.prod)

theorem sampleRequest_valid : (sampleRequest s A).options.Valid := by
  have h := unitRequest_linear.valid
  exact ⟨h.C1_pos, h.C2_pos, h.upsilon_pos, h.upsilon_lt_one, h.tau_pos, h.bound_pos⟩

include hs in
theorem sampleRequest_check :
    (sampleRequest s A).options.settings.check = .ok (sampleRequest s A).options :=
  sampleRequest_valid.check ⟨fun h => (nomatch h), fun h => (hs.ne' h).elim⟩

include hs in
theorem sampleRequest_linear {T : Space ℝ s →L[ℝ] Space ℝ s} (hA : A.Acts T) :
    (sampleRequest s A).Linear T (.id ℝ (Space ℝ s)) where
  A := ⟨A, rfl, hA⟩
  analysis := ⟨.operator .identity, .identity, rfl, rfl, Operator.acts_identity⟩
  q := rfl
  b := rfl
  b_ne_zero := by
    show vec s (ofVec s (ramp s)) ≠ 0
    rw [vec_ofVec]
    exact ramp_ne_zero hs
  x0 x hx := by
    cases hx
    rfl
  y0 y hy := by
    cases hy
    rw [size_ofVec, List.prod_singleton]
  nIter := unitRequest_linear.nIter
  kIter := unitRequest_linear.kIter
  epsilon := unitRequest_linear.epsilon
  delta := unitRequest_linear.delta
  valid := sampleRequest_valid
  bound := ⟨2, rfl⟩
  prox t v := ⟨v, rfl⟩
  error := unitRequest_linear.error
  callback := unitRequest_linear.callback

end Sample

end PrimalDual
