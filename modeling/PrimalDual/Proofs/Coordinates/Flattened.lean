/-
  PrimalDual.Proofs.Coordinates.Flattened
  ───────────────────────────────────────
  **FLATTENED PROBLEMS.**

  A problem on tensors of a shape `D` may be stated for vectors instead:

      A v     flatten (A (reshape D v))
      Aᴴ w    flatten (Aᴴ (reshape S w))

  and likewise for the analysis operator, with measurements and primal start
  flattened and everything else as it was.  Reading a tensor as a vector is a
  change of coordinates, in which the dual vector stays as it is.  So the two
  problems have the same runs (`Solver.shape_independent`), also where the
  norm of the operator is estimated, from a start drawn in row-major order.
-/
import PrimalDual.Proofs.Coordinates.Runs
import PrimalDual.Proofs.Run.Solvable

namespace PrimalDual

/-! ## §1. Problems on vectors. -/

section Definitions

variable {m : Type → Type} {R κ α : Type} [Monad m] [MonadLiftT (Except (Failure R)) m]

/-- The map on vectors: its argument is read in the shape `s`, and its image as a vector. -/
def vectorised (s : List ℕ) (f : Tensor κ α → m (Tensor κ α)) (v : Tensor κ α) :
    m (Tensor κ α) := do
  let x ← liftM (v.reshape (s.map Int.ofNat) : Except (Failure R) (Tensor κ α))
  return (← f x).flatten

variable [Control R] [Kinds κ] [Entry α R κ]

/-- The operator on vectors, if it takes tensors of the shape `D` to those of the shape `S`. -/
def Operator.onVectors (D S : List ℕ) (K : Operator m R κ α) : Operator m R κ α :=
  .maps (vectorised (R := R) D K.forward) (vectorised (R := R) S K.adjoint)

/-- The operator that is represented, on vectors. -/
def Representation.onVectors (D S : List ℕ) (A : Representation m R κ α) :
    Representation m R κ α :=
  match A.toOperator with
  | .ok K => .operator (K.onVectors D S)
  | .error _ => A

/-- The request for vectors instead of tensors of the shape `D`.  The ranges of its operators have
the shapes `S` and `Q`. -/
def Request.onVectors (D S Q : List ℕ) (r : Request m R κ α) : Request m R κ α :=
  { r with
    A := r.A.onVectors D S
    b := r.b.flatten
    x0 := r.x0.map Tensor.flatten
    options := { r.options with analysis := r.options.analysis.map (.onVectors D Q) } }

end Definitions

variable {𝕜 : Type} [RCLike 𝕜] {D S Q : List ℕ}

/-- The operator takes tensors of the shape `D` to tensors of the shape `S`, and back. -/
structure Operator.HasShapes (D S : List ℕ) (K : Operator (Except (Failure ℝ)) ℝ Unit 𝕜) :
    Prop where
  forward : ∀ x u, x.shape = D → K.forward x = .ok u → u.shape = S
  adjoint : ∀ y v, y.shape = S → K.adjoint y = .ok v → v.shape = D

/-- The data of the request have the stated shapes, and its other maps do not depend on them: the
proximal map commutes with flattening, and the observers fail for a tensor exactly if they do for
the vector of its entries.  Error values may differ, and are related by `E`. -/
structure Request.HasShapes (D S Q : List ℕ) (E : ℝ → ℝ → Prop)
    (r : Request (Except (Failure ℝ)) ℝ Unit 𝕜) : Prop where
  A : ∃ K, r.A.toOperator = .ok K ∧ K.HasShapes D S
  analysis : ∀ B ∈ r.options.analysis, ∃ K, B.toOperator = .ok K ∧ K.HasShapes D Q
  q : r.options.q = Q.prod
  b : r.b.shape = S
  x0 : ∀ x ∈ r.x0, x.shape = D
  y0 : ∀ y ∈ r.y0, y.size = S.prod + Q.prod
  prox_shape : ∀ t, 0 < t → ∀ x u, x.shape = D → r.prox x t = .ok u → u.shape = D
  prox : ∀ t, 0 < t → ∀ x, x.shape = D → r.prox x.flatten t = Tensor.flatten <$> r.prox x t
  error : ∀ f ∈ r.options.error, ∀ x, x.shape = D → Agrees E (f x) (f x.flatten)
  callback : ∀ f ∈ r.callback, ∀ k x, x.shape = D →
    Agrees (fun _ _ => True) (f k x) (f k x.flatten)

/-- The random start of a norm estimate has the shape that is asked for, and its entries are drawn
in row-major order. -/
structure Environment.RowMajor (D : List ℕ)
    (env : Environment (Except (Failure ℝ)) ℝ Unit 𝕜) : Prop where
  shape : ∀ v, env.draw D () = .ok v → v.shape = D
  flatten : env.draw [D.prod] () = Tensor.flatten <$> env.draw D ()

/-- The second tensor is the first one, which has the shape `D`, read as a vector. -/
def Tensor.Flattens (D : List ℕ) (x x' : Tensor Unit 𝕜) : Prop := x.shape = D ∧ x' = x.flatten

/-! ## §2. Reading a tensor as a vector is a change of coordinates. -/

namespace Tensor

variable {x x' : Tensor Unit 𝕜}

/-- In the coordinates `vectorOf` a tensor becomes the tensor that is flattened. -/
theorem move_vectorOf (hx : x.shape = D) : x.move (vectorOf D) = x.flatten := by
  obtain ⟨v, rfl⟩ : ∃ v, x = ofVec D v := ⟨vec D x, (ofVec_vec hx).symm⟩
  unfold move
  rw [vec_ofVec, flatten_ofVec rfl]
  rfl

theorem Moved.flattens (h : Moved (vectorOf D) x x') : Flattens D x x' :=
  ⟨h.shape, h.eq_move.trans (move_vectorOf h.shape)⟩

theorem moved_flatten (hx : x.shape = D) : Moved (vectorOf D) x x.flatten := by
  have h := moved_move (vectorOf D) hx
  rwa [move_vectorOf hx] at h

/-- The tensor is the vector in its shape. -/
theorem Flattens.reshape (h : Flattens D x x') :
    (x'.reshape (D.map Int.ofNat) : Except (Failure ℝ) _) = .ok x := by
  obtain ⟨hx, rfl⟩ := h
  obtain ⟨v, rfl⟩ : ∃ v, x = ofVec D v := ⟨vec D x, (ofVec_vec hx).symm⟩
  rw [flatten_ofVec rfl, reshape_ofVec rfl, LinearIsometryEquiv.symm_apply_apply]

end Tensor

open Tensor

/-- A map that commutes with flattening is the same map in these coordinates. -/
theorem conjugates_vectorOf {f f' : Tensor Unit 𝕜 → Except (Failure ℝ) (Tensor Unit 𝕜)}
    (hshape : ∀ x u, x.shape = D → f x = .ok u → u.shape = S)
    (hmap : ∀ x, x.shape = D → f' x.flatten = Tensor.flatten <$> f x) :
    Conjugates (vectorOf D) (vectorOf S) f f' where
  shape := hshape
  map x hx := by
    rw [move_vectorOf hx, hmap x hx]
    cases hu : f x with
    | error e => rfl
    | ok u => exact congrArg Except.ok (move_vectorOf (hshape x u hx hu)).symm

/-- A map read on vectors does to flattened tensors what the map does to tensors. -/
theorem vectorised_flatten {f : Tensor Unit 𝕜 → Except (Failure ℝ) (Tensor Unit 𝕜)}
    {x : Tensor Unit 𝕜} (hx : x.shape = D) :
    vectorised (R := ℝ) D f x.flatten = Tensor.flatten <$> f x := by
  have hread : (x.flatten.reshape (D.map Int.ofNat) : Except (Failure ℝ) _) = .ok x :=
    Flattens.reshape ⟨hx, rfl⟩
  unfold vectorised
  rw [hread, map_eq_pure_bind]
  rfl

theorem Operator.HasShapes.corresponds {K : Operator (Except (Failure ℝ)) ℝ Unit 𝕜}
    (h : K.HasShapes D S) : K.Corresponds (vectorOf D) (vectorOf S) (K.onVectors D S) where
  forward := conjugates_vectorOf h.forward fun _ hx => vectorised_flatten hx
  adjoint := conjugates_vectorOf h.adjoint fun _ hy => vectorised_flatten hy

theorem Representation.corresponds_onVectors
    {A : Representation (Except (Failure ℝ)) ℝ Unit 𝕜}
    (h : ∃ K, A.toOperator = .ok K ∧ K.HasShapes D S) :
    A.Corresponds (vectorOf D) (vectorOf S) (A.onVectors D S) := by
  obtain ⟨K, hK, hshapes⟩ := h
  refine ⟨K, K.onVectors D S, hK, ?_, hshapes.corresponds⟩
  unfold onVectors
  rw [hK]
  rfl

theorem Prox.keepsClip_vectorOf (s : List ℕ) :
    Prox.KeepsClip (vectorOf s : Space 𝕜 s →ₗᵢ[𝕜] _) := fun v => Prox.clip_reindex _ v

/-- What is flattened twice is flattened once. -/
theorem flatten_vectorOf (u : Space 𝕜 S) :
    (ofVec [S.prod] (vectorOf S u)).flatten = (ofVec S u).flatten := by
  rw [flatten_ofVec rfl u]
  exact flatten_vector _ _

/-- The dual vector has no shape: coordinates that keep the entries of both ranges keep it. -/
theorem eq_of_moved_dual {S' Q' : List ℕ} {q : ℕ} {U : Space 𝕜 S →ₗᵢ[𝕜] Space 𝕜 S'}
    {W : Space 𝕜 Q →ₗᵢ[𝕜] Space 𝕜 Q'} {hQ : Q.prod = q} {hQ' : Q'.prod = q}
    (hU : ∀ u, (ofVec S' (U u)).flatten = (ofVec S u).flatten)
    (hW : ∀ w, (ofVec Q' (W w)).flatten = (ofVec Q w).flatten) {y y' : Tensor Unit 𝕜}
    (h : Moved (dualCoordinates U W hQ hQ') y y') : y' = y := by
  -- A dual vector holds the entries of its first part and after them those of the second.
  have hentries : ∀ {s t : List ℕ} (ht : t.prod = q) (u : Space 𝕜 s) (w : Space 𝕜 t),
      ((ofVec s u).flatten.append (ofVec t w).flatten : Except (Failure ℝ) _)
        = .ok (ofVec [s.prod + q] (join (PrimalDual.flatten rfl u) (PrimalDual.flatten ht w))) := by
    intro s t ht u w
    rw [flatten_ofVec rfl, flatten_ofVec ht, append_ofVec]
  obtain ⟨v, rfl, rfl⟩ := h
  obtain ⟨u, w, rfl⟩ := exists_join hQ v
  have hmoved := hentries hQ' (U u) (W w)
  rw [hU, hW, hentries hQ] at hmoved
  rw [dualCoordinates_join]
  exact (Except.ok.inj hmoved).symm

/-- A dual vector is its own image: its blocks are flattened before they are joined. -/
theorem moved_dual_self {S' Q' : List ℕ} {q : ℕ} {U : Space 𝕜 S →ₗᵢ[𝕜] Space 𝕜 S'}
    {W : Space 𝕜 Q →ₗᵢ[𝕜] Space 𝕜 Q'} {hQ : Q.prod = q} {hQ' : Q'.prod = q}
    (hU : ∀ u, (ofVec S' (U u)).flatten = (ofVec S u).flatten)
    (hW : ∀ w, (ofVec Q' (W w)).flatten = (ofVec Q w).flatten) {y : Tensor Unit 𝕜}
    (hy : y.shape = [S.prod + q]) : Moved (dualCoordinates U W hQ hQ') y y := by
  have hmoved := moved_move (dualCoordinates U W hQ hQ') hy
  rwa [eq_of_moved_dual hU hW hmoved] at hmoved

/-! ## §3. Shape independence. -/

variable {E : ℝ → ℝ → Prop} {r : Request (Except (Failure ℝ)) ℝ Unit 𝕜}

/-- **A request on tensors and the one on vectors are one in other coordinates.** -/
theorem Request.HasShapes.moved (h : r.HasShapes D S Q E) (hvalid : r.options.Valid)
    (hnone : r.options.analysis = none → r.options.q = 0) :
    Request.Moved (Agrees.simulation ℝ) (vectorOf D) E (vectorOf S) (vectorOf Q) rfl
      List.prod_singleton r (r.onVectors D S Q) where
  A := (Representation.corresponds_onVectors h.A).agrees
  b := moved_flatten h.b
  epsilon := rfl
  delta := rfl
  prox t ht := (conjugates_vectorOf (h.prox_shape t ht) (h.prox t ht)).maps
  x0 := rel_option_image fun x hx => moved_flatten (h.x0 x hx)
  y0 := rel_option_self fun y hy => by
    have hshape : y.flatten.shape = [S.prod + Q.prod] := by
      rw [shape_flatten, h.y0 y hy]
    exact moved_dual_self flatten_vectorOf flatten_vectorOf hshape
  nIter := rfl
  kIter := rfl
  options := Options.moved_analysis (fun f hf x x' hx => by
    rw [hx.flattens.2]
    exact h.error f hf x hx.shape) Option.isSome_map
  analysis := rel_option_image fun B hB =>
    (Representation.corresponds_onVectors (h.analysis B hB)).agrees
  callback := rel_option_self fun f hf k x x' hx => by
    rw [hx.flattens.2]
    exact h.callback f hf k x hx.shape
  q := h.q
  valid := hvalid
  analysis_none := hnone
  keepsClip := Prox.keepsClip_vectorOf Q

/-- **Shape independence.**  A problem is solved exactly when the problem on vectors is.  Then
dual vector, bound, scale, rescaling factors and target errors are the same, and solution,
recorded iterates and the arguments of the observers are those of the shape `D`, read as vectors.
The dual vector has an entry for each measurement and each entry of the analysis operator. -/
theorem Solver.shape_independent {settings : Settings (Except (Failure ℝ)) ℝ Unit 𝕜}
    (hsettings : settings.check = .ok r.options) (h : r.HasShapes D S Q E)
    {env : Environment (Except (Failure ℝ)) ℝ Unit 𝕜}
    (hdraw : r.options.bound = none → env.RowMajor D) :
    Agrees (Solution.Related (Flattens D)
          (fun y y' => y' = y ∧ y.shape = [r.b.size + r.options.q]) E)
        (solve env r) (solve env (r.onVectors D S Q))
      ∧ Agrees (fun out out' => List.Forall₂ (Call.Related (Flattens D)) out.2 out'.2)
        (watch env r) (watch env (r.onVectors D S Q)) := by
  have hmoved := h.moved (settings.check_valid hsettings) (settings.check_analysis hsettings)
  have hreport : ∀ event, Agrees (fun _ _ => True) (env.report event) (env.report event) :=
    fun event => .same _
  have hstart : r.options.bound = none →
      Agrees (Tensor.Moved (vectorOf D)) (env.draw D ()) (env.draw [D.prod] ()) := by
    intro hnone
    rw [(hdraw hnone).flatten]
    exact .of_map fun v hv => moved_flatten ((hdraw hnone).shape v hv)
  refine hmoved.related hreport hstart (fun _ _ hx => hx.flattens) fun y y' hy => ⟨?_, ?_⟩
  · exact eq_of_moved_dual flatten_vectorOf flatten_vectorOf hy
  · rw [size_eq, h.b, h.q]
    exact hy.shape

/-! ## §4. A problem with two axes. -/

theorem Operator.identity_hasShapes :
    (Operator.identity : Operator (Except (Failure ℝ)) ℝ Unit 𝕜).HasShapes D D where
  forward x u hx hu := by
    cases hu
    exact hx
  adjoint y v hy hv := by
    cases hv
    exact hy

theorem Operator.ofLinear_hasShapes (T : Space 𝕜 D →L[𝕜] Space 𝕜 S) :
    (Operator.ofLinear T).HasShapes D S where
  forward x u hx hu := by
    cases hu
    rfl
  adjoint y v hy hv := by
    cases hv
    rfl

/-- A problem on tensors with two axes, each entry of which is measured with a weight. -/
noncomputable abbrev squareRequest : Request (Except (Failure ℝ)) ℝ Unit ℝ :=
  sampleRequest [2, 2] (.ofLinear (graded [2, 2]))

theorem squareRequest_hasShapes : squareRequest.HasShapes [2, 2] [2, 2] [2, 2] (· = ·) where
  A := ⟨_, rfl, Operator.ofLinear_hasShapes _⟩
  analysis := by
    rintro _ ⟨⟩
    exact ⟨.identity, rfl, Operator.identity_hasShapes⟩
  q := rfl
  b := rfl
  x0 := by
    rintro _ ⟨⟩
    rfl
  y0 := by
    rintro _ ⟨⟩
    exact (size_ofVec _).trans List.prod_singleton
  prox_shape t _ x u hx hu := by
    cases hu
    exact hx
  prox t _ x hx := rfl
  error f hf x hx := by
    cases hf
    show Agrees _ x.normValue x.flatten.normValue
    rw [normValue_flatten]
    exact .refl _
  callback f hf k x hx := by
    cases hf
    exact .ok trivial

/-- The problem with two axes, on vectors. -/
theorem Solver.shape_independent_square :
    squareRequest.options.settings.check = .ok squareRequest.options
      ∧ ∃ sol sol', solve quietEnvironment squareRequest = .ok sol
        ∧ solve quietEnvironment (squareRequest.onVectors [2, 2] [2, 2] [2, 2]) = .ok sol'
        ∧ sol.x.shape = [2, 2] ∧ sol'.x = sol.x.flatten ∧ sol'.y = sol.y ∧ sol.y.shape = [8] := by
  have hpos : 0 < [2, 2].prod := by decide
  have hcheck : squareRequest.options.settings.check = .ok squareRequest.options :=
    sampleRequest_check hpos
  obtain ⟨sol, hsol⟩ := (sampleRequest_linear hpos
    (Operator.acts_ofLinear (graded [2, 2]))).solve_returns quietEnvironment_receptive
  have hdraw : squareRequest.options.bound = none → quietEnvironment.RowMajor [2, 2] :=
    fun h => by cases h
  obtain ⟨hsolve, -⟩ := shape_independent hcheck squareRequest_hasShapes hdraw
  obtain ⟨sol', hsol', h⟩ := hsolve.returns hsol
  exact ⟨hcheck, sol, sol', hsol, hsol', h.x.1, h.x.2, h.y.1, h.y.2⟩

end PrimalDual
