/-
  PrimalDual.Proofs.Calls.Requests
  ────────────────────────────────
  **TWO REQUESTS WITH THE SAME DATA.**

  The requests `r` and `r'` are *alike* if they have the same data and their
  maps are related at their sites.  Then what is prepared from them are
  *twins*: two problems with the same numbers and tensors, assembled from the
  maps of the one request and of the other (`Request.Alike.prepare`).  Twins
  name the maps that they are made of, so they may be compared in any other
  way in which the requests are alike (`Prepared.Twins.alike`).

      prepare     along the plan `Request.setup`
      carryOut    along the plan of the restarts
-/
import PrimalDual.Proofs.Calls.Comparison
import PrimalDual.Proofs.Run.Preparation

namespace PrimalDual

variable {m m' : Type → Type} {R κ α : Type} [Monad m] [Monad m']
variable [MonadLiftT (Except (Failure R)) m] [MonadLiftT (Except (Failure R)) m']
variable [Control R]

/-! ## §1. Options with a bound, operators with a block. -/

/-- The checks that options have to pass with a bound. -/
def Options.checkBound (o : Options m R κ α) (bound : R) : Except (Failure R) Unit :=
  if Control.le o.C1 Control.zero || Control.le o.C2 Control.zero then .error (.sharpness o.C1 o.C2)
  else if !(Control.lt Control.zero o.upsilon && Control.lt o.upsilon Control.one) then
    .error (.shrinkRate o.upsilon)
  else if Control.le o.tau Control.zero then .error (.stepFactor o.tau)
  else if Control.le bound Control.zero then .error (.operatorBound bound)
  else if o.analysis.isSome && o.q == 0 then .error .analysisDimensionMissing
  else if o.analysis.isNone && o.q != 0 then .error (.analysisOperatorMissing (.whole o.q))
  else .ok ()

omit [Monad m] [MonadLiftT (Except (Failure R)) m] in
theorem Options.change_bound (o : Options m R κ α) (bound : R) :
    o.change (fun s => { s with bound := some bound })
      = (fun _ => { o with bound := some bound }) <$> o.checkBound bound := by
  unfold change settings
  rw [Settings.check_of_whole rfl]
  unfold Settings.accept checkBound
  simp only [bind, Except.bind, pure, Except.pure, throw, throwThe, MonadExceptOf.throw,
    OutputType.ofNumber?_number, Quantity.toNat?_natCast]
  split_ifs <;> rfl

omit [Monad m] [Monad m'] [MonadLiftT (Except (Failure R)) m]
  [MonadLiftT (Except (Failure R)) m'] in
theorem Options.SameNumbers.checkBound {o : Options m R κ α} {o' : Options m' R κ α}
    (h : o.SameNumbers o') (bound : R) : o'.checkBound bound = o.checkBound bound := by
  unfold Options.checkBound
  rw [← Option.not_isSome, ← Option.not_isSome, h.C1, h.C2, h.upsilon, h.tau, h.analysis, h.q]

omit [Monad m] [Monad m'] [MonadLiftT (Except (Failure R)) m]
  [MonadLiftT (Except (Failure R)) m'] in
/-- Stacking looks at nothing but the sizes. -/
theorem Operator.stack_matches (K B : Operator m R κ α) (K' B' : Operator m' R κ α)
    (q : Quantity R) (range : List ℤ) :
    Matches (fun S S' => S = .stacked K (.flattened B range) q
        ∧ S' = .stacked K' (.flattened B' range) q)
      (K.stack B q none (some range)) (K'.stack B' q none (some range)) := by
  unfold Operator.stack
  dsimp only
  split_ifs
  · exact .error _
  · exact .ok ⟨rfl, rfl⟩
  · exact .error _

variable [Kinds κ] [Entry α R κ]

/-! ## §2. Norm estimates. -/

namespace NormEstimate

theorem normValue_routine (x : Tensor κ α) : Routine (x.normValue : Except (Failure R) R) :=
  (Tensor.norm_routine x).bind fun _ => .ok _

theorem normalise_routine (x : Tensor κ α) : Routine (normalise x : Except (Failure R) _) :=
  (Tensor.norm_routine x).bind fun _ => Tensor.zipWith_routine _ _ _ _ _ _

variable {σ : Comparison m m' R} {fwd adj : List (Site R)}
variable {K : Operator m R κ α} {K' : Operator m' R κ α} (hK : Operator.Alike σ fwd adj K K')
include hK

theorem image_alike (v : Tensor κ α) : σ.rel (fwd ++ adj) (· = ·) (image K v) (image K' v) := by
  unfold image
  apply σ.bind_same (hK.forward v)
  intro u
  apply σ.bind_silent (hK.adjoint u)
  intro w _ hw
  cases hw
  exact σ.lift_bind_same (normValue_routine w) fun _ _ => σ.pure rfl

theorem iterate_alike (margin : R) (n : ℕ) (v : Tensor κ α) (bound : R) :
    σ.rel (Site.repeated n (fwd ++ adj)) (· = ·) (iterate K margin n v bound)
      (iterate K' margin n v bound) := by
  induction n generalizing v bound with
  | zero => exact σ.pure rfl
  | succ n ih =>
    unfold iterate
    rw [Site.repeated_succ]
    exact σ.bind_same (image_alike hK v) fun out => ih _ _

/-- **An estimate passes the operator and its adjoint in turn.** -/
theorem estimate_alike {draw : List ℕ → κ → m (Tensor κ α)} {draw' : List ℕ → κ → m' (Tensor κ α)}
    (shape : List ℕ) (kind : κ) (hdraw : σ.rel [] (· = ·) (draw shape kind) (draw' shape kind))
    (iterations : ℤ) (margin : R) :
    σ.rel (Site.repeated iterations.toNat (fwd ++ adj)) (· = ·)
      (estimate draw K shape iterations margin kind)
      (estimate draw' K' shape iterations margin kind) := by
  unfold estimate
  apply σ.silent_bind hdraw
  intro start _ hstart
  cases hstart
  apply σ.lift_bind_same (normalise_routine start)
  intro v _
  exact iterate_alike hK margin _ v _

end NormEstimate

/-! ## §3. Requests. -/

/-- The observer that a request sets on a restart. -/
def Request.observer (r : Request m R κ α) (al scale : R) (type : OutputType) (offset : ℤ) :
    Observer m R κ α where
  al := al
  scale := scale
  outputType := type
  store := r.options.store
  error := r.options.error
  callback := r.callback
  offset := offset

/-- The sites of a preparation. -/
def Request.setup (r : Request m R κ α) : List (Site R) :=
  (if r.x0.isNone then [.adjoint .measurement] else [])
    ++ ((if r.options.analysis.isSome then [.forward .analysis] else [])
      ++ if r.options.bound.isNone then Site.repeated 10
          (Site.forwards r.options.analysis.isSome ++ Site.adjoints r.options.analysis.isSome)
        else [])

/-- The sites of one step with its observation, which passes the sites `seen`. -/
def Request.block (r : Request m R κ α) (seen : List (Site R)) (t : R) : List (Site R) :=
  (Site.adjoints r.options.analysis.isSome ++ .prox t :: Site.forwards r.options.analysis.isSome)
    ++ seen

/-- The two requests have the same data, and their maps are related at their sites. -/
structure Request.Alike (σ : Comparison m m' R) (seen : List (Site R)) (Stored Measured : Prop)
    (r : Request m R κ α) (r' : Request m' R κ α) : Prop where
  A : Matches (Operator.Alike σ [.forward .measurement] [.adjoint .measurement])
    r.A.toOperator r'.A.toOperator
  b : r'.b = r.b
  epsilon : r'.epsilon = r.epsilon
  delta : r'.delta = r.delta
  prox : ∀ x t, σ.rel [.prox t] (· = ·) (r.prox x t) (r'.prox x t)
  x0 : r'.x0 = r.x0
  y0 : r'.y0 = r.y0
  nIter : r'.nIter = r.nIter
  kIter : r'.kIter = r.kIter
  options : r.options.SameNumbers r'.options
  analysis : Option.Rel (fun B B' =>
      Matches (Operator.Alike σ [.forward .analysis] [.adjoint .analysis]) B.toOperator B'.toOperator)
    r.options.analysis r'.options.analysis
  observe : ∀ al scale type offset k it, σ.rel seen (Record.Like Stored Measured)
    ((r.observer al scale type offset).observe k it)
    ((r'.observer al scale type offset).observe k it)

/-- The two operators are assembled from those of the requests, in the same way. -/
inductive Request.Assembles (r : Request m R κ α) (r' : Request m' R κ α) :
    Operator m R κ α → Operator m' R κ α → Prop where
  | measurement {A A'} (shape : List ℤ) (hA : r.A.toOperator = .ok A)
    (hA' : r'.A.toOperator = .ok A') (hnone : r.options.analysis = none) :
    Assembles r r' (.flattened A shape) (.flattened A' shape)
  | stacked {A A' B B' rep rep'} (shape range : List ℤ) (q : Quantity R)
    (hA : r.A.toOperator = .ok A) (hA' : r'.A.toOperator = .ok A')
    (hsome : r.options.analysis = some rep) (hsome' : r'.options.analysis = some rep')
    (hB : rep.toOperator = .ok B) (hB' : rep'.toOperator = .ok B') :
    Assembles r r' (.stacked (.flattened A shape) (.flattened B range) q)
      (.stacked (.flattened A' shape) (.flattened B' range) q)

/-- The two problems have the same data and are made of the maps of the requests. -/
structure Prepared.Twins (r : Request m R κ α) (r' : Request m' R κ α) (L : R)
    (ready : Prepared m R κ α) (ready' : Prepared m' R κ α) : Prop where
  K : r.Assembles r' ready.schedule.K ready'.schedule.K
  b : ready'.schedule.b = ready.schedule.b
  epsilon : ready'.schedule.epsilon = ready.schedule.epsilon
  delta : ready'.schedule.delta = ready.schedule.delta
  scale : ready'.schedule.scale = ready.schedule.scale
  outputType : ready'.schedule.outputType = ready.schedule.outputType
  start : ready'.start = ready.start
  prox : ready.schedule.prox = r.prox
  prox' : ready'.schedule.prox = r'.prox
  kIter : ready.schedule.kIter = r.kIter
  kIter' : ready'.schedule.kIter = r'.kIter
  callback : ready.schedule.callback = r.callback
  callback' : ready'.schedule.callback = r'.callback
  options : ready.schedule.options = { r.options with bound := some L }
  options' : ready'.schedule.options = { r'.options with bound := some L }
  /-- A bound that was given is the one in force. -/
  given : ∀ L', r.options.bound = some L' → L' = L

namespace Request.Alike

variable {σ : Comparison m m' R} {seen : List (Site R)} {Stored Measured : Prop}
variable {r : Request m R κ α} {r' : Request m' R κ α} (h : r.Alike σ seen Stored Measured r')
include h

theorem operator {A : Operator m R κ α} {A' : Operator m' R κ α} (hA : r.A.toOperator = .ok A)
    (hA' : r'.A.toOperator = .ok A') :
    Operator.Alike σ [.forward .measurement] [.adjoint .measurement] A A' := by
  have hmatches := h.A
  rw [hA, hA'] at hmatches
  cases hmatches with
  | ok h => exact h

theorem analysisOperator {rep : Representation m R κ α} {rep' : Representation m' R κ α}
    (hrep : r.options.analysis = some rep) (hrep' : r'.options.analysis = some rep') :
    Matches (Operator.Alike σ [.forward .analysis] [.adjoint .analysis]) rep.toOperator
      rep'.toOperator := by
  have hmatches := h.analysis
  rw [hrep, hrep'] at hmatches
  cases hmatches with
  | some h => exact h

/-- What is assembled from the operators passes their sites. -/
theorem assembled {K : Operator m R κ α} {K' : Operator m' R κ α} (hK : r.Assembles r' K K') :
    Operator.Alike σ (Site.forwards r.options.analysis.isSome)
      (Site.adjoints r.options.analysis.isSome) K K' := by
  cases hK with
  | measurement shape hA hA' hnone =>
    rw [hnone]
    exact (h.operator hA hA').flattened shape
  | stacked shape range q hA hA' hsome hsome' hB hB' =>
    have hmatches := h.analysisOperator hsome hsome'
    rw [hB, hB'] at hmatches
    rw [hsome]
    cases hmatches with
    | ok hB => exact ((h.operator hA hA').flattened shape).stacked (hB.flattened range) q

end Request.Alike

/-- Twins are alike in every way in which their requests are. -/
theorem Prepared.Twins.alike {r : Request m R κ α} {r' : Request m' R κ α} {L : R}
    {ready : Prepared m R κ α} {ready' : Prepared m' R κ α} (h : Prepared.Twins r r' L ready ready')
    {σ : Comparison m m' R} {seen : List (Site R)} {Stored Measured : Prop}
    (hr : r.Alike σ seen Stored Measured r') :
    ready.schedule.Alike σ (Site.forwards r.options.analysis.isSome)
      (Site.adjoints r.options.analysis.isSome) seen Stored Measured ready'.schedule where
  b := h.b
  K := hr.assembled h.K
  epsilon := h.epsilon
  delta := h.delta
  prox x t := by
    rw [h.prox, h.prox']
    exact hr.prox x t
  kIter := by
    rw [h.kIter, h.kIter', hr.kIter]
  options := by
    rw [h.options, h.options']
    exact { hr.options with bound := rfl }
  outputType := h.outputType
  scale := h.scale
  observe al type offset k it := by
    unfold Schedule.observer
    rw [h.scale, h.options, h.options', h.callback, h.callback']
    exact hr.observe al ready.schedule.scale type offset k it

/-! ## §4. Preparation. -/

/-- The environments draw the same starts and report alike. -/
structure Environment.Alike (σ : Comparison m m' R) (display display' : Bool)
    (env : Environment m R κ α) (env' : Environment m' R κ α) : Prop where
  draw : ∀ shape kind, σ.rel [] (· = ·) (env.draw shape kind) (env'.draw shape kind)
  tell : ∀ event, σ.rel [] (· = ·) (env.tell display event) (env'.tell display' event)

namespace Request.Alike

variable {σ : Comparison m m' R} (hσ : σ.Tolerant) {seen : List (Site R)} {Stored Measured : Prop}
variable {r : Request m R κ α} {r' : Request m' R κ α} (h : r.Alike σ seen Stored Measured r')
include hσ h

omit hσ in
theorem checkRequest : Solver.checkRequest r' = Solver.checkRequest r := by
  unfold Solver.checkRequest
  rw [h.nIter, h.kIter, h.epsilon, h.delta]

omit hσ in
/-- Both read the operator of the measurements, or refuse it. -/
theorem measurement : Matches (fun K K' => ∃ A A' shape, r.A.toOperator = .ok A
      ∧ r'.A.toOperator = .ok A' ∧ K = .flattened A shape ∧ K' = .flattened A' shape)
    (Solver.measurement r) (Solver.measurement r') := by
  unfold Solver.measurement
  rw [h.b]
  exact h.A.results.bind fun A A' ⟨_, hA, hA'⟩ => .ok ⟨A, A', _, hA, hA', rfl, rfl⟩

omit hσ in
theorem primalStart {K : Operator m R κ α} {K' : Operator m' R κ α}
    (hK : Operator.Alike σ [.forward .measurement] [.adjoint .measurement] K K') (b : Tensor κ α) :
    σ.rel (if r.x0.isNone then [.adjoint .measurement] else []) (· = ·)
      (Solver.primalStart K b r.x0) (Solver.primalStart K' b r'.x0) := by
  rw [h.x0]
  cases r.x0 with
  | some x => exact σ.pure rfl
  | none => exact σ.bind_pure (hK.adjoint b) fun _ _ hu => congrArg Tensor.zerosLike hu

/-- The operator with the analysis operator below, and the measurements with zeros. -/
theorem stackAnalysis {A : Operator m R κ α} {A' : Operator m' R κ α} (shape : List ℤ)
    (hA : r.A.toOperator = .ok A) (hA' : r'.A.toOperator = .ok A') (b x0 : Tensor κ α) :
    σ.rel (if r.options.analysis.isSome then [.forward .analysis] else [])
      (fun out out' => r.Assembles r' out.1 out'.1 ∧ out.2 = out'.2)
      (Solver.stackAnalysis (.flattened A shape) b x0 r.options.q r.options.analysis)
      (Solver.stackAnalysis (.flattened A' shape) b x0 r'.options.q r'.options.analysis) := by
  rw [h.options.q]
  -- Both requests have an analysis operator, or neither has.
  cases hrep : r.options.analysis with
  | none =>
    have hrep' : r'.options.analysis = none := by
      rw [← Option.not_isSome_iff_eq_none, h.options.analysis, hrep]
      simp
    rw [hrep']
    exact σ.pure ⟨.measurement shape hA hA' hrep, rfl⟩
  | some rep =>
    obtain ⟨rep', hrep'⟩ : ∃ rep', r'.options.analysis = some rep' := by
      rw [← Option.isSome_iff_exists, h.options.analysis, hrep]
      rfl
    rw [hrep']
    unfold Solver.stackAnalysis
    apply σ.silent_bind (hσ.lift (h.analysisOperator hrep hrep').results)
    intro B B' hB
    apply σ.bind_silent (hB.1.forward x0)
    intro image _ himage
    cases himage
    refine hσ.lift ((Operator.stack_matches _ B _ B' _ _).bind fun S S' hS => .bind_same fun b => ?_)
    obtain ⟨rfl, rfl⟩ := hS
    exact .ok ⟨.stacked shape _ _ hA hA' hrep hrep' hB.2.1 hB.2.2, rfl⟩

variable [LawfulMonad m] [LawfulMonad m']
variable {env : Environment m R κ α} {env' : Environment m' R κ α}
variable (henv : env.Alike σ r.options.display r'.options.display env')
include henv

/-- The options in force, with the bound that was given or the same estimate. -/
theorem ensureBound {K : Operator m R κ α} {K' : Operator m' R κ α} (hK : r.Assembles r' K K')
    (x0 : Tensor κ α) :
    σ.rel (if r.options.bound.isNone then Site.repeated 10
          (Site.forwards r.options.analysis.isSome ++ Site.adjoints r.options.analysis.isSome)
        else [])
      (fun o o' => ∃ L, o = { r.options with bound := some L }
        ∧ o' = { r'.options with bound := some L } ∧ ∀ L', r.options.bound = some L' → L' = L)
      (Solver.ensureBound env K x0 r.options) (Solver.ensureBound env' K' x0 r'.options) := by
  cases hbound : r.options.bound with
  | some L =>
    have hbound' : r'.options.bound = some L := h.options.bound.trans hbound
    rw [Solver.ensureBound_some env K x0 hbound, Solver.ensureBound_some env' K' x0 hbound']
    refine σ.pure ⟨L, ?_, ?_, fun L' hL' => (Option.some.inj hL').symm⟩
    · rw [← hbound]
    · rw [← hbound']
  | none =>
    have hbound' : r'.options.bound = none := h.options.bound.trans hbound
    rw [Solver.ensureBound_none env K x0 hbound, Solver.ensureBound_none env' K' x0 hbound']
    apply σ.silent_bind (henv.tell _)
    intro _ _ _
    apply σ.bind_silent (NormEstimate.estimate_alike (h.assembled hK) x0.shape x0.kind
      (henv.draw _ _) NormEstimate.defaultIterations NormEstimate.defaultMargin)
    intro L _ hL
    cases hL
    -- The changed options pass the same check, as it reads the bound alone.
    have hchange : Matches (fun o o' => o = { r.options with bound := some L }
          ∧ o' = { r'.options with bound := some L })
        (r.options.change fun s => { s with bound := some L })
        (r'.options.change fun s => { s with bound := some L }) := by
      rw [Options.change_bound, Options.change_bound, h.options.checkBound]
      cases r.options.checkBound L with
      | ok u => exact .ok ⟨rfl, rfl⟩
      | error e => exact .error e
    refine σ.silent_bind (hσ.lift hchange) ?_
    rintro _ _ ⟨rfl, rfl⟩
    exact σ.bind_pure (henv.tell _) fun _ _ _ => ⟨L, rfl, rfl, fun L' hL' => nomatch hL'⟩

omit [LawfulMonad m] [LawfulMonad m'] hσ henv in
/-- Both problems are divided by the same norm. -/
theorem normalise {K : Operator m R κ α} {K' : Operator m' R κ α} (hK : r.Assembles r' K K')
    (b x0 y0 : Tensor κ α) {L : R} (hL : ∀ L', r.options.bound = some L' → L' = L) :
    Matches (Prepared.Twins r r' L)
      (Solver.normalise r K b x0 y0 { r.options with bound := some L })
      (Solver.normalise r' K' b x0 y0 { r'.options with bound := some L }) := by
  have htype := h.options.outputType
  have hC2 := h.options.C2
  -- The numbers are computed from the same tensors, so nothing has to be compared but failures.
  unfold Solver.normalise
  rw [h.epsilon, h.delta]
  refine .bind_same ?_
  intro scale
  generalize Control.eq scale Control.zero = zero
  cases zero with
  | true => exact .error _
  | false =>
    refine .bind_same ?_
    intro epsilon
    refine .bind_same ?_
    intro delta
    refine .bind_same ?_
    intro length
    refine .ok ?_
    refine ⟨hK, rfl, rfl, rfl, rfl, ?_, ?_, rfl, rfl, rfl, rfl, rfl, rfl, rfl, rfl, hL⟩
    · dsimp only
      rw [htype]
    · dsimp only
      rw [hC2]

/-- **Requests that are alike are prepared alike, along the plan of the preparation.** -/
theorem prepare :
    σ.rel r.setup (fun ready ready' => ∃ L, Prepared.Twins r r' L ready ready')
      (Solver.prepare env r) (Solver.prepare env' r') := by
  unfold Solver.prepare Request.setup
  rw [h.checkRequest, h.b, h.y0]
  -- The checks of the request come before any of its maps is called.
  apply σ.silent_bind (hσ.lift (.refl _))
  intro _ _ _
  refine σ.silent_bind (hσ.lift h.measurement) ?_
  rintro _ _ ⟨A, A', shape, hA, hA', rfl, rfl⟩
  apply σ.bind_same (h.primalStart ((h.operator hA hA').flattened shape) _)
  intro x0
  refine σ.bind (h.stackAnalysis hσ shape hA hA' _ x0) ?_
  rintro ⟨K, b⟩ ⟨K', _⟩ ⟨hK, rfl⟩
  refine σ.bind_silent (h.ensureBound hσ henv hK x0) ?_
  rintro _ _ ⟨L, rfl, rfl, hL⟩
  exact hσ.lift ((h.normalise hK b x0 _ hL).mono fun _ _ hready => ⟨L, hready⟩)

end Request.Alike

/-! ## §5. Runs. -/

namespace Solver

/-- The restarts of a prepared problem, with their reports, and the solution. -/
def carryOut (env : Environment m R κ α) (nIter : ℤ) (ready : Prepared m R κ α) :
    m (Solution m R κ α) := do
  announce env nIter ready.schedule
  let out ← restarts env ready.schedule nIter.toNat 0 ready.start
  env.tell ready.schedule.options.display (.completed nIter ready.schedule.kIter)
  return solution nIter ready.schedule out.1 out.2

theorem solve_carryOut [LawfulMonad m] (env : Environment m R κ α) (r : Request m R κ α) :
    solve env r = prepare env r >>= carryOut env r.nIter := solve_eq env r

end Solver

/-- The two solutions agree, records included where these are compared. -/
structure Solution.Like (Stored Measured : Prop) (sol : Solution m R κ α)
    (sol' : Solution m' R κ α) : Prop where
  x : sol'.x = sol.x
  y : sol'.y = sol.y
  iterates : Stored → sol'.iterates = sol.iterates
  errors : Measured → sol'.errors = sol.errors
  bound : sol'.options.bound = sol.options.bound
  scale : sol'.scale = sol.scale
  alHistory : sol'.alHistory = sol.alHistory
  epsHistory : sol'.epsHistory = sol.epsHistory

section Runs

variable {σ : Comparison m m' R} {seen : List (Site R)} {Stored Measured : Prop}
variable {r : Request m R κ α} {r' : Request m' R κ α}
variable {env : Environment m R κ α} {env' : Environment m' R κ α}

omit [Kinds κ] [Entry α R κ] in
/-- Twins announce their restarts alike, if both do. -/
theorem Prepared.Twins.announce {L : R} {ready : Prepared m R κ α} {ready' : Prepared m' R κ α}
    (h : Prepared.Twins r r' L ready ready') (hnumbers : r.options.SameNumbers r'.options)
    (hkIter : r'.kIter = r.kIter) (hdisplay : r'.options.display = r.options.display)
    (hreport : ∀ event, σ.rel [] (· = ·) (env.report event) (env'.report event))
    (nIter : ℤ) :
    σ.rel [] (· = ·) (Solver.announce env nIter ready.schedule)
      (Solver.announce env' nIter ready'.schedule) := by
  have hsame : ready.schedule.options.SameNumbers ready'.schedule.options := by
    rw [h.options, h.options']
    exact { hnumbers with bound := rfl }
  have hopening : Solver.opening nIter ready'.schedule = Solver.opening nIter ready.schedule := by
    unfold Solver.opening
    rw [hsame.boundOf, hsame.stepSize, h.kIter, h.kIter', hkIter, hsame.outputType, h.scale, hsame.q]
  have hdisplayed : ready'.schedule.options.display = ready.schedule.options.display := by
    rw [h.options, h.options']
    exact hdisplay
  unfold Solver.announce
  rw [hopening, hdisplayed]
  split
  · exact σ.lift_bind_same (Solver.opening_routine _ _) fun _ _ => hreport _
  · exact σ.pure rfl

variable [LawfulMonad m] [LawfulMonad m']

/-- Restarts that are alike, along their plan, up to what the solutions are made of: any
relation that holds of them, for trails that agree, holds of the results. -/
theorem Prepared.Twins.carryOut_of_trails {L : R} {ready : Prepared m R κ α}
    {ready' : Prepared m' R κ α} (h : Prepared.Twins r r' L ready ready')
    (hr : r.Alike σ seen Stored Measured r')
    (htell : ∀ event, σ.rel [] (· = ·) (env.tell r.options.display event)
      (env'.tell r'.options.display event)) {nIter : ℤ}
    (hannounce : σ.rel [] (· = ·) (Solver.announce env nIter ready.schedule)
      (Solver.announce env' nIter ready'.schedule))
    {Q : Solution m R κ α → Solution m' R κ α → Prop}
    (hQ : ∀ final trail trail', Trail.Like Stored Measured trail trail' →
      Q (Solver.solution nIter ready.schedule final trail)
        (Solver.solution nIter ready'.schedule final trail')) :
    σ.rel (Site.repeated nIter.toNat (Site.repeated r.kIter.toNat (r.block seen (r.options.tau / L))))
      Q (Solver.carryOut env nIter ready) (Solver.carryOut env' nIter ready') := by
  -- A division that is guarded returns the quotient or nothing.
  have hstep : ∀ step, Schedule.stepSize ready.schedule.options = .ok step →
      step = r.options.tau / L := by
    intro step hstep
    rw [h.options] at hstep
    obtain ⟨bound, hbound, hstep⟩ := bind_eq_ok.1 hstep
    cases hbound
    exact (Except.ok.inj (guard_ok hstep).2).symm
  have htell' : ∀ event, σ.rel [] (· = ·)
      (env.tell ready.schedule.options.display event)
      (env'.tell ready'.schedule.options.display event) := by
    rw [h.options, h.options']
    exact htell
  have hrestarts := (h.alike hr).restarts htell' hstep nIter.toNat 0 ready.start
  rw [h.kIter] at hrestarts
  unfold Solver.carryOut
  rw [h.start, (h.alike hr).kIter]
  apply σ.silent_bind hannounce
  intro _ _ _
  refine σ.bind_silent hrestarts ?_
  rintro ⟨final, trail⟩ ⟨_, trail'⟩ ⟨rfl, htrail⟩
  exact σ.bind_pure (htell' _) fun _ _ _ => hQ final trail trail' htrail

/-- **Restarts that are alike, along their plan.** -/
theorem Prepared.Twins.carryOut {L : R} {ready : Prepared m R κ α} {ready' : Prepared m' R κ α}
    (h : Prepared.Twins r r' L ready ready') (hr : r.Alike σ seen Stored Measured r')
    (hstore : Stored → r'.options.store = r.options.store)
    (htell : ∀ event, σ.rel [] (· = ·) (env.tell r.options.display event)
      (env'.tell r'.options.display event)) {nIter : ℤ}
    (hannounce : σ.rel [] (· = ·) (Solver.announce env nIter ready.schedule)
      (Solver.announce env' nIter ready'.schedule)) :
    σ.rel (Site.repeated nIter.toNat (Site.repeated r.kIter.toNat (r.block seen (r.options.tau / L))))
      (Solution.Like Stored Measured) (Solver.carryOut env nIter ready)
      (Solver.carryOut env' nIter ready') := by
  apply h.carryOut_of_trails hr htell hannounce
  intro final trail trail' htrail
  exact {
    x := congrArg (Tensor.scale · final.psi) h.scale
    y := congrArg (Tensor.scale · final.y) h.scale
    iterates := fun hS => by
      unfold Solver.solution
      rw [h.options, h.options']
      dsimp only
      rw [hstore hS, htrail.iterates hS]
    errors := fun hM => by
      unfold Solver.solution
      dsimp only
      rw [List.flatMap_def, List.flatMap_def, htrail.errors hM]
    bound := by
      unfold Solver.solution
      rw [h.options, h.options']
    scale := h.scale
    alHistory := htrail.als
    epsHistory := htrail.epss }

variable (env env')

/-- **Runs of requests that are alike.**  The bound that a preparation finds decides the step of
the proximal map, so the plan of the restarts is stated as some list of sites `G` that stands for
it whatever the step. -/
theorem Request.Alike.solve (hσ : σ.Tolerant) (h : r.Alike σ seen Stored Measured r')
    (hdisplay : r'.options.display = r.options.display)
    (hstore : Stored → r'.options.store = r.options.store)
    (hdraw : ∀ shape kind, σ.rel [] (· = ·) (env.draw shape kind) (env'.draw shape kind))
    (hreport : ∀ event, σ.rel [] (· = ·) (env.report event) (env'.report event))
    {G : List (Site R)} (hG : ∀ (t : R) {x : m (Solution m R κ α)} {x' : m' (Solution m' R κ α)},
      σ.rel (Site.repeated r.nIter.toNat (Site.repeated r.kIter.toNat (r.block seen t)))
        (Solution.Like Stored Measured) x x' → σ.rel G (Solution.Like Stored Measured) x x') :
    σ.rel (r.setup ++ G) (Solution.Like Stored Measured) (Solver.solve env r)
      (Solver.solve env' r') := by
  have htell : ∀ event, σ.rel [] (· = ·) (env.tell r.options.display event)
      (env'.tell r'.options.display event) := by
    rw [hdisplay]
    exact σ.tell hreport _
  rw [Solver.solve_carryOut, Solver.solve_carryOut, h.nIter]
  refine σ.bind (h.prepare hσ ⟨hdraw, htell⟩) ?_
  rintro ready ready' ⟨L, hready⟩
  exact hG _ (hready.carryOut h hstore htell
    (hready.announce h.options h.kIter hdisplay hreport r.nIter))

end Runs

end PrimalDual
