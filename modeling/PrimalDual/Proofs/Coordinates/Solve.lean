/-
  PrimalDual.Proofs.Coordinates.Solve
  ───────────────────────────────────
  **REQUESTS IN OTHER COORDINATES.**

  Let `V` change the coordinates of primal tensors, `U` those of the
  measurements and `W` those of the range of the analysis operator.  The
  dual vector has the coordinates of both ranges, one after the other:

      Z = blocks (flat U) (flat W)

  If two requests correspond in these coordinates (`Request.Moved`), each
  stage of a preparation does (`Request.Moved.prepare`), and so does the
  whole run (`Request.Moved.solve`).
-/
import PrimalDual.Proofs.Coordinates.Restarts
import PrimalDual.Proofs.Run.Targets

namespace PrimalDual

/-! ## §1. Checks. -/

/-- Without an analysis operator its range has no entries. -/
theorem Settings.check_analysis {m : Type → Type} {R κ α : Type} [Control R]
    {s : Settings m R κ α} {o : Options m R κ α} (h : s.check = .ok o) (hB : o.analysis = none) :
    o.q = 0 :=
  (check_eq_ok.1 h).2.analysis.1 hB

open Tensor

variable {𝕜 : Type} [RCLike 𝕜] {D D' N N' S S' Q Q' : List ℕ} {q : ℕ}
variable {m m' : Type → Type} [Monad m] [Monad m']
variable [MonadLiftT (Except (Failure ℝ)) m] [MonadLiftT (Except (Failure ℝ)) m']
variable {σ : Simulation m m' ℝ} {V : Space 𝕜 D →ₗᵢ[𝕜] Space 𝕜 D'}
variable {Z : Space 𝕜 N →ₗᵢ[𝕜] Space 𝕜 N'} {E : ℝ → ℝ → Prop}

/-! ## §2. Norm estimates. -/

namespace NormEstimate

variable {K : Operator m ℝ Unit 𝕜} {K' : Operator m' ℝ Unit 𝕜}

theorem moved_image (hK : Operator.Moved σ V Z K K') {v v' : Tensor Unit 𝕜} (hv : Moved V v v') :
    σ.rel (fun out out' => Moved V out.1 out'.1 ∧ out.2 = out'.2) (image K v) (image K' v') := by
  unfold image
  apply σ.bind (hK.forward v v' hv)
  intro u u' hu
  apply σ.bind (hK.adjoint u u' hu)
  intro w w' hw
  rw [hw.normValue]
  refine σ.bind (σ.lift_refl _) ?_
  rintro length _ rfl
  exact σ.pure ⟨hw, rfl⟩

theorem moved_iterate (hK : Operator.Moved σ V Z K K') (margin : ℝ) (n : ℕ)
    {v v' : Tensor Unit 𝕜} (hv : Moved V v v') (bound : ℝ) :
    σ.rel (· = ·) (iterate K margin n v bound) (iterate K' margin n v' bound) := by
  induction n generalizing v v' bound with
  | zero => exact σ.pure rfl
  | succ n ih =>
    unfold iterate
    refine σ.bind (moved_image hK hv) ?_
    rintro ⟨w, length⟩ ⟨w', _⟩ ⟨hw, rfl⟩
    exact ih (hw.divBy _) _

/-- **The estimate does not depend on the coordinates.** -/
theorem moved_estimate (hK : Operator.Moved σ V Z K K') {draw : List ℕ → Unit → m (Tensor Unit 𝕜)}
    {draw' : List ℕ → Unit → m' (Tensor Unit 𝕜)} (hdraw : σ.rel (Moved V) (draw D ()) (draw' D' ()))
    (iterations : ℤ) (margin : ℝ) :
    σ.rel (· = ·) (estimate draw K D iterations margin ())
      (estimate draw' K' D' iterations margin ()) := by
  unfold estimate
  apply σ.bind hdraw
  intro start start' hstart
  apply σ.bind (σ.lift hstart.normalise)
  intro v v' hv
  exact moved_iterate hK margin _ hv _

end NormEstimate

/-! ## §3. Requests. -/

/-- The coordinates of a dual vector: those of the measurements, and after them those of the
range of the analysis operator. -/
noncomputable def dualCoordinates (U : Space 𝕜 S →ₗᵢ[𝕜] Space 𝕜 S')
    (W : Space 𝕜 Q →ₗᵢ[𝕜] Space 𝕜 Q') (hQ : Q.prod = q) (hQ' : Q'.prod = q) :
    Space 𝕜 [S.prod + q] →ₗᵢ[𝕜] Space 𝕜 [S'.prod + q] :=
  blocks (flat rfl rfl U) (flat hQ hQ' W)

theorem dualCoordinates_join (U : Space 𝕜 S →ₗᵢ[𝕜] Space 𝕜 S') (W : Space 𝕜 Q →ₗᵢ[𝕜] Space 𝕜 Q')
    (hQ : Q.prod = q) (hQ' : Q'.prod = q) (u : Space 𝕜 S) (w : Space 𝕜 Q) :
    dualCoordinates U W hQ hQ' (join (flatten rfl u) (flatten hQ w))
      = join (flatten rfl (U u)) (flatten hQ' (W w)) := by
  unfold dualCoordinates
  rw [blocks_join, flat_flatten, flat_flatten]

/-- Every dual vector consists of an element of each range. -/
theorem exists_join (hQ : Q.prod = q) (v : Space 𝕜 [S.prod + q]) :
    ∃ (u : Space 𝕜 S) (w : Space 𝕜 Q), v = join (flatten rfl u) (flatten hQ w) := by
  obtain ⟨u, hu⟩ := (flatten rfl : Space 𝕜 S ≃ₗᵢ[𝕜] Space 𝕜 [S.prod]).surjective (upper v)
  obtain ⟨w, hw⟩ := (flatten hQ : Space 𝕜 Q ≃ₗᵢ[𝕜] Space 𝕜 [q]).surjective (lower v)
  exact ⟨u, w, by rw [hu, hw, join_upper_lower]⟩

variable (σ V E) (U : Space 𝕜 S →ₗᵢ[𝕜] Space 𝕜 S') (W : Space 𝕜 Q →ₗᵢ[𝕜] Space 𝕜 Q')

/-- The second request is the first one in other coordinates. -/
structure Request.Moved (hQ : Q.prod = q) (hQ' : Q'.prod = q) (r : Request m ℝ Unit 𝕜)
    (r' : Request m' ℝ Unit 𝕜) : Prop where
  A : Agrees (Operator.Moved σ V U) r.A.toOperator r'.A.toOperator
  b : Tensor.Moved U r.b r'.b
  epsilon : r'.epsilon = r.epsilon
  delta : r'.delta = r.delta
  prox : ∀ t, 0 < t → σ.Maps (Tensor.Moved V) (Tensor.Moved V) (r.prox · t) (r'.prox · t)
  x0 : Option.Rel (Tensor.Moved V) r.x0 r'.x0
  y0 : Option.Rel (fun y y' => Tensor.Moved (dualCoordinates U W hQ hQ') y.flatten y'.flatten)
    r.y0 r'.y0
  nIter : r'.nIter = r.nIter
  kIter : r'.kIter = r.kIter
  options : Options.Moved σ V E r.options r'.options
  analysis : Option.Rel (fun B B' => Agrees (Operator.Moved σ V W) B.toOperator B'.toOperator)
    r.options.analysis r'.options.analysis
  callback : Option.Rel (fun f f' => ∀ k, σ.Maps (Tensor.Moved V) (fun _ _ => True) (f k) (f' k))
    r.callback r'.callback
  /-- The number of entries in the range of the analysis operator. -/
  q : r.options.q = q
  valid : r.options.Valid
  /-- Without an analysis operator there are none. -/
  analysis_none : r.options.analysis = none → r.options.q = 0
  keepsClip : Prox.KeepsClip W

/-- The same options with another analysis operator. -/
theorem Options.moved_analysis {o : Options m ℝ Unit 𝕜} {B : Option (Representation m ℝ Unit 𝕜)}
    {σ : Simulation m m ℝ} {V : Space 𝕜 D →ₗᵢ[𝕜] Space 𝕜 D'} {E : ℝ → ℝ → Prop}
    (herror : ∀ f ∈ o.error, σ.Maps (Tensor.Moved V) E f f)
    (hanalysis : B.isSome = o.analysis.isSome) :
    Options.Moved σ V E o { o with analysis := B } where
  C1 := rfl
  C2 := rfl
  store := rfl
  outputType := rfl
  upsilon := rfl
  bound := rfl
  tau := rfl
  display := rfl
  q := rfl
  error := rel_option_self herror
  analysis := hanalysis

/-- The prepared problem in other coordinates. -/
structure Prepared.Moved (Z : Space 𝕜 N →ₗᵢ[𝕜] Space 𝕜 N') (ready : Prepared m ℝ Unit 𝕜)
    (ready' : Prepared m' ℝ Unit 𝕜) : Prop where
  schedule : Schedule.Moved σ V Z E ready.schedule ready'.schedule
  start : RestartState.Moved V Z ready.start ready'.start

/-- The solution in other coordinates. -/
structure Solution.Moved (Z : Space 𝕜 N →ₗᵢ[𝕜] Space 𝕜 N') (sol : Solution m ℝ Unit 𝕜)
    (sol' : Solution m' ℝ Unit 𝕜) : Prop where
  x : Tensor.Moved V sol.x sol'.x
  y : Tensor.Moved Z sol.y sol'.y
  iterates : List.Forall₂ (List.Forall₂ (Tensor.Moved V)) sol.iterates sol'.iterates
  errors : List.Forall₂ E sol.errors sol'.errors
  options : Options.Moved σ V E sol.options sol'.options
  scale : sol'.scale = sol.scale
  alHistory : sol'.alHistory = sol.alHistory
  epsHistory : sol'.epsHistory = sol.epsHistory

variable {σ V E U W}

namespace Schedule.Moved

variable {s : Schedule m ℝ Unit 𝕜} {s' : Schedule m' ℝ Unit 𝕜} (h : Schedule.Moved σ V Z E s s')
include h

/-- Both runs are announced in the same words. -/
theorem announce {env : Environment m ℝ Unit 𝕜} {env' : Environment m' ℝ Unit 𝕜}
    (hreport : ∀ event, σ.rel (fun _ _ => True) (env.report event) (env'.report event)) (n : ℤ) :
    σ.rel (fun _ _ => True) (Solver.announce env n s) (Solver.announce env' n s') := by
  have hopening : Solver.opening n s' = Solver.opening n s := by
    unfold Solver.opening
    rw [h.options.boundOf, h.options.stepSize, h.kIter, h.options.outputType, h.scale,
      h.options.q]
  unfold Solver.announce
  rw [h.options.display, hopening]
  split
  · refine σ.bind (σ.lift_refl _) ?_
    rintro event _ rfl
    exact hreport event
  · exact σ.pure trivial

/-- What is returned for a last state and the records of all restarts. -/
theorem solution (n : ℤ) {state state' : RestartState ℝ Unit 𝕜} {trail trail' : Trail ℝ Unit 𝕜}
    (hstate : RestartState.Moved V Z state state') (htrail : Trail.Moved V E trail trail') :
    Solution.Moved σ V E Z (Solver.solution n s state trail)
      (Solver.solution n s' state' trail') := by
  unfold Solver.solution
  rw [h.scale, h.kIter]
  constructor
  · exact hstate.psi.scale _
  · exact hstate.y.scale _
  · dsimp only
    rw [h.options.store]
    split
    · exact List.rel_map (fun _ _ h => h.iterates) htrail.records
    · exact .nil
  · exact List.rel_flatMap htrail.records fun _ _ h => h.errors
  · exact h.options
  · rfl
  · exact htrail.als
  · exact htrail.epss

end Schedule.Moved

omit [RCLike 𝕜] [Monad m] [MonadLiftT (Except (Failure ℝ)) m] in
/-- An analysis operator whose range has `q` entries can be stacked. -/
theorem Operator.stack_whole (hQ : Q.prod = q) (K B : Operator m ℝ Unit 𝕜) :
    K.stack B (.whole q) none (some (Q.map Int.ofNat))
      = .ok (.stacked K (.flattened B (Q.map Int.ofNat)) (.whole q)) := by
  have hentries : (Q.map Int.ofNat).foldr (· * ·) 1 = (q : ℤ) := by
    rw [Tensor.prod_map_ofNat, hQ]
  have hnonneg : decide ((q : ℤ) < 0) = false := by
    simp
  unfold stack
  simp only [hentries, hnonneg, Bool.false_eq_true, if_false, decide_true, if_true]
  rfl

namespace Request.Moved

variable {hQ : Q.prod = q} {hQ' : Q'.prod = q} {r : Request m ℝ Unit 𝕜} {r' : Request m' ℝ Unit 𝕜}
variable (h : Request.Moved σ V E U W hQ hQ' r r')
include h

theorem checkRequest : Solver.checkRequest r' = Solver.checkRequest r := by
  unfold Solver.checkRequest
  rw [h.nIter, h.kIter, h.epsilon, h.delta]

theorem measurement : Agrees (Operator.Moved σ V (flat rfl rfl U)) (Solver.measurement r)
    (Solver.measurement r') := by
  unfold Solver.measurement
  rw [h.b.shape, h.b.shape']
  exact h.A.bind fun A A' hA => .ok (hA.flattened rfl rfl)

theorem respects : Prox.Respects r.options.q (dualCoordinates U W hQ hQ') := by
  rw [h.q]
  exact Prox.respects_blocks (h.keepsClip.flat hQ hQ')

theorem primalStart {K : Operator m ℝ Unit 𝕜} {K' : Operator m' ℝ Unit 𝕜}
    (hK : Operator.Moved σ V (flat rfl rfl U) K K') :
    σ.rel (Tensor.Moved V) (Solver.primalStart K r.b.flatten r.x0)
      (Solver.primalStart K' r'.b.flatten r'.x0) := by
  have hx0 := h.x0
  revert hx0
  generalize r.x0 = x0
  generalize r'.x0 = x0'
  rintro (hx | _)
  · exact σ.pure hx
  · exact σ.bind (hK.adjoint _ _ (h.b.flatten rfl rfl)) fun u u' hu => σ.pure hu.zerosLike

/-- The operator with the analysis operator below, and the measurements with zeros. -/
theorem stackAnalysis {K : Operator m ℝ Unit 𝕜} {K' : Operator m' ℝ Unit 𝕜}
    (hK : Operator.Moved σ V (flat rfl rfl U) K K') {x0 x0' : Tensor Unit 𝕜}
    (hx0 : Tensor.Moved V x0 x0') :
    σ.rel (fun out out' => Operator.Moved σ V (dualCoordinates U W hQ hQ') out.1 out'.1
        ∧ Tensor.Moved (dualCoordinates U W hQ hQ') out.2 out'.2)
      (Solver.stackAnalysis K r.b.flatten x0 r.options.q r.options.analysis)
      (Solver.stackAnalysis K' r'.b.flatten x0' r'.options.q r'.options.analysis) := by
  have hb := h.b.flatten rfl rfl
  have hanalysis := h.analysis
  have hnone := h.analysis_none
  rw [h.options.q, h.q] at *
  revert hanalysis hnone
  generalize r.options.analysis = g
  generalize r'.options.analysis = g'
  rintro (hB | _) hnone
  · unfold Solver.stackAnalysis
    apply σ.bind (σ.lift hB)
    intro B B' hB
    apply σ.bind (hB.forward x0 x0' hx0)
    intro image image' himage
    have hzeros : Tensor.Moved (flat hQ hQ' W) (zeros () [q]) (zeros () [q]) :=
      (moved_ofVec (flat hQ hQ' W) 0).zerosLike
    -- The range of the analysis operator may have another shape, of as many entries.
    rw [himage.shape, himage.shape', Operator.stack_whole hQ, Operator.stack_whole hQ']
    refine σ.lift (Agrees.bind (.ok (hK.stacked (hB.flattened hQ hQ'))) ?_)
    intro c c' hc
    exact (hb.append hzeros).bind fun d d' hd => .ok ⟨hc, hd⟩
  · -- Without an analysis operator the dual vector is the measured one.
    obtain rfl : q = 0 := hnone rfl
    have hZ : dualCoordinates U W hQ hQ' = flat rfl rfl U := blocks_zero _ _
    rw [hZ]
    exact σ.pure ⟨hK, hb⟩

/-- The dual start. -/
theorem dualStart {b b' : Tensor Unit 𝕜} (hb : Tensor.Moved (dualCoordinates U W hQ hQ') b b') :
    Tensor.Moved (dualCoordinates U W hQ hQ') (r.y0.getD b.zerosLike).flatten
      (r'.y0.getD b'.zerosLike).flatten := by
  have hy0 := h.y0
  revert hy0
  generalize r.y0 = y0
  generalize r'.y0 = y0'
  rintro (hy | _)
  · exact hy
  · exact hb.zerosLike.flatten_vector

/-- Options that are given the same bound. -/
theorem changeBound (L : ℝ) : Agrees (fun o o' => Options.Moved σ V E o o' ∧ o.Valid
      ∧ ∃ L, o = { r.options with bound := some L })
    (r.options.change fun s => { s with bound := some L })
    (r'.options.change fun s => { s with bound := some L }) := by
  have hisNone : r'.options.analysis.isNone = r.options.analysis.isNone := by
    rw [← Option.not_isSome, ← Option.not_isSome, h.options.analysis]
  -- The checks read nothing in which the two differ.
  refine .of_returns ?_ ?_
  · simp only [Options.change_bound_eq_ok, h.options.C1, h.options.C2, h.options.upsilon,
      h.options.tau, h.options.analysis, h.options.q, hisNone, exists_and_left, exists_eq]
  · intro o o' ho ho'
    obtain ⟨-, -, -, hpositive, -, -, rfl⟩ := Options.change_bound_eq_ok.1 ho
    obtain ⟨-, -, -, -, -, -, rfl⟩ := Options.change_bound_eq_ok.1 ho'
    refine ⟨⟨h.options.C1, h.options.C2, h.options.store, h.options.outputType, h.options.upsilon,
      rfl, h.options.tau, h.options.display, h.options.q, h.options.error, h.options.analysis⟩,
      ⟨h.valid.C1_pos, h.valid.C2_pos, h.valid.upsilon_pos, h.valid.upsilon_lt_one,
        h.valid.tau_pos, ?_⟩, L, rfl⟩
    intro L' hL'
    rw [← Option.some.inj hL']
    simpa using hpositive

variable [LawfulMonad m] [LawfulMonad m']
variable {env : Environment m ℝ Unit 𝕜} {env' : Environment m' ℝ Unit 𝕜}

/-- **The options in force**, with the bound that was given or the same estimate. -/
theorem ensureBound
    (hreport : ∀ event, σ.rel (fun _ _ => True) (env.report event) (env'.report event))
    (hdraw : r.options.bound = none → σ.rel (Tensor.Moved V) (env.draw D ()) (env'.draw D' ()))
    {K : Operator m ℝ Unit 𝕜} {K' : Operator m' ℝ Unit 𝕜} (hK : Operator.Moved σ V Z K K')
    {x0 x0' : Tensor Unit 𝕜} (hx0 : Tensor.Moved V x0 x0') :
    σ.rel (fun o o' => Options.Moved σ V E o o' ∧ o.Valid
        ∧ ∃ L, o = { r.options with bound := some L })
      (Solver.ensureBound env K x0 r.options) (Solver.ensureBound env' K' x0' r'.options) := by
  cases hbound : r.options.bound with
  | some L =>
    have hbound' : r'.options.bound = some L := h.options.bound.trans hbound
    rw [Solver.ensureBound_some env K x0 hbound, Solver.ensureBound_some env' K' x0' hbound']
    refine σ.pure ⟨h.options, h.valid, L, ?_⟩
    rw [← hbound]
  | none =>
    have hbound' : r'.options.bound = none := h.options.bound.trans hbound
    rw [Solver.ensureBound_none env K x0 hbound, Solver.ensureBound_none env' K' x0' hbound',
      h.options.display, hx0.shape, hx0.shape']
    apply σ.bind (σ.tell hreport _ _)
    intro _ _ _
    refine σ.bind (NormEstimate.moved_estimate hK (hdraw hbound) _ _) ?_
    rintro L _ rfl
    apply σ.bind (σ.lift (h.changeBound L))
    intro o o' ho
    rw [ho.1.display]
    exact σ.bind (σ.tell hreport _ _) fun _ _ _ => σ.pure ho

omit [LawfulMonad m] [LawfulMonad m'] in
/-- Both problems are divided by the same norm. -/
theorem normalise {K : Operator m ℝ Unit 𝕜} {K' : Operator m' ℝ Unit 𝕜}
    (hK : Operator.Moved σ V (dualCoordinates U W hQ hQ') K K') {b b' x0 x0' y0 y0' : Tensor Unit 𝕜}
    (hb : Tensor.Moved (dualCoordinates U W hQ hQ') b b') (hx0 : Tensor.Moved V x0 x0')
    (hy0 : Tensor.Moved (dualCoordinates U W hQ hQ') y0 y0') {o : Options m ℝ Unit 𝕜}
    {o' : Options m' ℝ Unit 𝕜} (ho : Options.Moved σ V E o o') (hvalid : o.Valid)
    (hbound : ∃ L, o = { r.options with bound := some L }) :
    Agrees (Prepared.Moved σ V E (dualCoordinates U W hQ hQ'))
      (Solver.normalise r K b x0 y0 o) (Solver.normalise r' K' b' x0' y0' o') := by
  have hq : o.q = r.options.q := by
    obtain ⟨L, rfl⟩ := hbound
    rfl
  -- Every number of the problem is computed from norms, which both problems share.
  unfold Solver.normalise
  rw [hb.normValue, h.epsilon, h.delta]
  refine (Agrees.refl _).bind ?_
  rintro scale _ rfl
  dsimp only
  rw [(hb.divBy scale).normValue]
  cases Control.eq scale Control.zero with
  | true => exact .error _ _
  | false =>
    refine (Agrees.refl _).bind ?_
    rintro epsilon _ rfl
    refine (Agrees.refl _).bind ?_
    rintro delta _ rfl
    refine (Agrees.refl _).bind ?_
    rintro length _ rfl
    refine .ok ⟨⟨hb.divBy scale, hK, rfl, rfl, h.prox, h.kIter, ho, hvalid, ?_, rfl, h.callback,
      ?_⟩, hx0.divBy scale, hy0.divBy scale, ?_⟩
    · rw [ho.outputType]
    · rw [hq]
      exact h.respects
    · rw [ho.C2]

/-- **Preparation in other coordinates.** -/
theorem prepare
    (hreport : ∀ event, σ.rel (fun _ _ => True) (env.report event) (env'.report event))
    (hdraw : r.options.bound = none → σ.rel (Tensor.Moved V) (env.draw D ()) (env'.draw D' ())) :
    σ.rel (Prepared.Moved σ V E (dualCoordinates U W hQ hQ')) (Solver.prepare env r)
      (Solver.prepare env' r') := by
  unfold Solver.prepare
  rw [h.checkRequest]
  apply σ.bind (σ.lift_refl _)
  intro _ _ _
  apply σ.bind (σ.lift h.measurement)
  intro A A' hA
  apply σ.bind (h.primalStart hA)
  intro x0 x0' hx0
  refine σ.bind (h.stackAnalysis hA hx0) ?_
  rintro ⟨K, b⟩ ⟨K', b'⟩ ⟨hK, hb⟩
  apply σ.bind (h.ensureBound hreport hdraw hK hx0)
  intro o o' ho
  exact σ.lift (h.normalise hK hb hx0 (h.dualStart hb) ho.1 ho.2.1 ho.2.2)

/-- **Solving in other coordinates.** -/
theorem solve
    (hreport : ∀ event, σ.rel (fun _ _ => True) (env.report event) (env'.report event))
    (hdraw : r.options.bound = none → σ.rel (Tensor.Moved V) (env.draw D ()) (env'.draw D' ())) :
    σ.rel (Solution.Moved σ V E (dualCoordinates U W hQ hQ')) (Solver.solve env r)
      (Solver.solve env' r') := by
  rw [Solver.solve_eq, Solver.solve_eq, h.nIter]
  apply σ.bind (h.prepare hreport hdraw)
  intro ready ready' hready
  have hs := hready.schedule
  apply σ.bind (hs.announce hreport r.nIter)
  intro _ _ _
  apply σ.bind (hs.restarts hreport r.nIter.toNat 0 hready.start)
  intro out out' hout
  rw [hs.options.display, hs.kIter]
  apply σ.bind (σ.tell hreport _ _)
  intro _ _ _
  exact σ.pure (hs.solution r.nIter hout.1 hout.2)

end Request.Moved

end PrimalDual
