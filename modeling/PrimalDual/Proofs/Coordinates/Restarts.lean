/-
  PrimalDual.Proofs.Coordinates.Restarts
  ──────────────────────────────────────
  **RESTARTS IN OTHER COORDINATES.**

  Let `V` change the coordinates of primal vectors and `Z` those of dual
  ones.  If two schedules have corresponding operators, proximal maps,
  measurements and observers, and the same numbers, then so have their
  restarts: whatever one of them hands on, records or shows is what the
  other one does, in other coordinates.

  Each function of a run has one lemma, along its own `do` block:

      Operator.Moved.flattened, .stacked       operators
      Problem.Moved.advance                    one step
      Observer.Moved.observe                   one record
      Inner.moved_steps, Inner.moved_run       runs of steps
      Schedule.Moved.restart, .restarts        restarts
-/
import PrimalDual.Proofs.Coordinates.Blocks
import PrimalDual.Proofs.Restart.Budget

namespace PrimalDual

variable {𝕜 : Type} [RCLike 𝕜] {D D' N N' S S' : List ℕ}
variable {m m' : Type → Type} [Monad m] [Monad m']
variable [MonadLiftT (Except (Failure ℝ)) m] [MonadLiftT (Except (Failure ℝ)) m']
variable (σ : Simulation m m' ℝ) (V : Space 𝕜 D →ₗᵢ[𝕜] Space 𝕜 D')
variable (Z : Space 𝕜 N →ₗᵢ[𝕜] Space 𝕜 N')

/-! ## §1. Operators. -/

/-- The second operator is the first one in other coordinates. -/
structure Operator.Moved (K : Operator m ℝ Unit 𝕜) (K' : Operator m' ℝ Unit 𝕜) : Prop where
  forward : σ.Maps (Tensor.Moved V) (Tensor.Moved Z) K.forward K'.forward
  adjoint : σ.Maps (Tensor.Moved Z) (Tensor.Moved V) K.adjoint K'.adjoint

variable {σ V Z} {A B : Operator m ℝ Unit 𝕜} {A' B' : Operator m' ℝ Unit 𝕜}

namespace Operator.Moved

/-- Operators that correspond still do when their ranges are flattened. -/
theorem flattened {U : Space 𝕜 S →ₗᵢ[𝕜] Space 𝕜 S'} {k k' : ℕ} (hS : S.prod = k)
    (hS' : S'.prod = k') (h : Operator.Moved σ V U A A') :
    Operator.Moved σ V (flat hS hS' U) (.flattened A (S.map Int.ofNat))
      (.flattened A' (S'.map Int.ofNat)) where
  forward x x' hx := by
    unfold Operator.forward
    exact σ.bind (h.forward x x' hx) fun u u' hu => σ.pure (hu.flatten hS hS')
  adjoint y y' hy := by
    unfold Operator.adjoint
    exact σ.bind (σ.lift (hy.reshape hS hS')) fun v v' hv => h.adjoint v v' hv

variable {k k' q : ℕ} {U : Space 𝕜 [k] →ₗᵢ[𝕜] Space 𝕜 [k']} {W : Space 𝕜 [q] →ₗᵢ[𝕜] Space 𝕜 [q]}

/-- **Stacked operators correspond if their blocks do.** -/
theorem stacked (hA : Operator.Moved σ V U A A') (hB : Operator.Moved σ V W B B') :
    Operator.Moved σ V (blocks U W) (.stacked A B (.whole q)) (.stacked A' B' (.whole q)) where
  forward x x' hx := by
    unfold Operator.forward
    apply σ.bind (hA.forward x x' hx)
    intro u u' hu
    apply σ.bind (hB.forward x x' hx)
    intro v v' hv
    exact σ.lift (hu.flatten_vector.append hv.flatten_vector)
  adjoint y y' hy := by
    -- Each dual vector is cut `q` entries before its end, which is where its blocks meet.
    have hcut : ∀ {n : ℕ} {w : Tensor Unit 𝕜}, w.shape = [n + q] →
        (Tensor.cutBefore w.size (.whole q) : Except (Failure ℝ) ℤ) = .ok (n : ℤ) := by
      intro n w hw
      refine congrArg Except.ok ?_
      rw [Tensor.size_of_vector hw]
      omega
    unfold Operator.adjoint
    refine σ.bind (P := fun cut cut' => cut = (k : ℤ) ∧ cut' = (k' : ℤ)) (σ.lift ?_) ?_
    · rw [hcut hy.shape, hcut hy.shape']
      exact .ok ⟨rfl, rfl⟩
    · rintro _ _ ⟨rfl, rfl⟩
      apply σ.bind (σ.lift hy.leading)
      intro a a' ha
      apply σ.bind (hA.adjoint a a' ha)
      intro u u' hu
      apply σ.bind (σ.lift hy.trailing)
      intro c c' hc
      apply σ.bind (hB.adjoint c c' hc)
      intro v v' hv
      exact σ.lift (hu.add hv)

end Operator.Moved

/-! ## §2. Steps. -/

variable (V Z)

/-- The iterate in other coordinates. -/
structure Iterate.Moved (s s' : Iterate Unit 𝕜) : Prop where
  x : Tensor.Moved V s.x s'.x
  y : Tensor.Moved Z s.y s'.y
  xSum : Tensor.Moved V s.xSum s'.xSum
  ySum : Tensor.Moved Z s.ySum s'.ySum

variable (σ)

/-- The problem in other coordinates. -/
structure Problem.Moved (q : ℕ) (p : Problem m ℝ Unit 𝕜) (p' : Problem m' ℝ Unit 𝕜) : Prop where
  b : Tensor.Moved Z p.b p'.b
  K : Operator.Moved σ V Z p.K p'.K
  primalStep : p'.primalStep = p.primalStep
  dualStep : p'.dualStep = p.dualStep
  epsilon : p'.epsilon = p.epsilon
  prox : σ.Maps (Tensor.Moved V) (Tensor.Moved V) (p.prox · p.primalStep)
    (p'.prox · p.primalStep)
  size : p.q = .whole q
  size' : p'.q = .whole q
  respects : Prox.Respects q Z

variable {σ V Z}

theorem Iterate.moved_start {x x' y y' : Tensor Unit 𝕜} (hx : Tensor.Moved V x x')
    (hy : Tensor.Moved Z y y') : Iterate.Moved V Z (.start x y) (.start x' y') :=
  ⟨hx, hy, hx.zerosLike, hy.zerosLike⟩

namespace Problem.Moved

variable {q : ℕ} {p : Problem m ℝ Unit 𝕜} {p' : Problem m' ℝ Unit 𝕜}
variable (h : Problem.Moved σ V Z q p p')
include h

/-- The argument of the proximal map is moved. -/
theorem primalArgument {x x' u u' : Tensor Unit 𝕜} (hx : Tensor.Moved V x x')
    (hu : Tensor.Moved V u u') :
    Agrees (Tensor.Moved V) (p.primalArgument x u) (p'.primalArgument x' u') := by
  unfold Problem.primalArgument
  rw [h.primalStep]
  exact hx.sub (hu.scale _)

/-- The dual step is moved. -/
theorem dualUpdate {y y' image image' : Tensor Unit 𝕜} (hy : Tensor.Moved Z y y')
    (himage : Tensor.Moved Z image image') :
    Agrees (Tensor.Moved Z) (p.dualUpdate y image) (p'.dualUpdate y' image') := by
  unfold Problem.dualUpdate
  rw [h.dualStep, h.epsilon, h.size, h.size']
  apply (hy.add (himage.scale _)).bind
  intro w w' hw
  exact (hw.sub (h.b.scale _)).bind fun z z' hz => h.respects.dual hz _

/-- **One step in other coordinates.** -/
theorem advance {s s' : Iterate Unit 𝕜} (hs : Iterate.Moved V Z s s') :
    σ.rel (Iterate.Moved V Z) (p.advance s) (p'.advance s') := by
  unfold Problem.advance
  apply σ.bind (h.K.adjoint _ _ hs.y)
  intro u u' hu
  apply σ.bind (σ.lift (h.primalArgument hs.x hu))
  intro v v' hv
  refine σ.bind (P := Tensor.Moved V) ?_ ?_
  · rw [h.primalStep]
    exact h.prox v v' hv
  intro x x' hx
  have hextrapolated : Agrees (Tensor.Moved V) (extrapolate (R := ℝ) x s.x)
      (extrapolate (R := ℝ) x' s'.x) := (hx.scale _).sub hs.x
  apply σ.bind (σ.lift hextrapolated)
  intro e e' he
  apply σ.bind (h.K.forward e e' he)
  intro image image' himage
  apply σ.bind (σ.lift (h.dualUpdate hs.y himage))
  intro y y' hy
  apply σ.bind (σ.lift (hs.xSum.add hx))
  intro xSum xSum' hxSum
  apply σ.bind (σ.lift (hs.ySum.add hy))
  intro ySum ySum' hySum
  exact σ.pure ⟨hx, hy, hxSum, hySum⟩

end Problem.Moved

/-! ## §3. Records. -/

variable (σ V Z) (E : ℝ → ℝ → Prop)

/-- The observer of the iterates in other coordinates.  Its error values are related by `E`. -/
structure Observer.Moved (o : Observer m ℝ Unit 𝕜) (o' : Observer m' ℝ Unit 𝕜) : Prop where
  al : o'.al = o.al
  scale : o'.scale = o.scale
  outputType : o'.outputType = o.outputType
  store : o'.store = o.store
  error : Option.Rel (σ.Maps (Tensor.Moved V) E) o.error o'.error
  callback : Option.Rel (fun f f' => ∀ k, σ.Maps (Tensor.Moved V) (fun _ _ => True) (f k) (f' k))
    o.callback o'.callback
  offset : o'.offset = o.offset

/-- The record of an iterate in other coordinates. -/
structure Record.Moved (r r' : Record ℝ Unit 𝕜) : Prop where
  snapshot : Option.Rel (Tensor.Moved V) r.snapshot r'.snapshot
  error : Option.Rel E r.error r'.error

/-- The result of a run of steps in other coordinates. -/
structure InnerResult.Moved (r r' : InnerResult ℝ Unit 𝕜) : Prop where
  x : Tensor.Moved V r.x r'.x
  y : Tensor.Moved Z r.y r'.y
  iterates : List.Forall₂ (Tensor.Moved V) r.iterates r'.iterates
  errors : List.Forall₂ E r.errors r'.errors

variable {σ V Z E}

/-- **One record in other coordinates.** -/
theorem Observer.Moved.observe [LawfulMonad m] [LawfulMonad m'] {o : Observer m ℝ Unit 𝕜}
    {o' : Observer m' ℝ Unit 𝕜} (h : Observer.Moved σ V E o o') (k : ℕ) {s s' : Iterate Unit 𝕜}
    (hs : Iterate.Moved V Z s s') :
    σ.rel (Record.Moved V E) (o.observe k s) (o'.observe k s') := by
  -- All that an observer is given is made of the iterate, by scaling alone.
  have hsnapshot : Tensor.Moved V (o.snapshot k s) (o'.snapshot k s') := by
    unfold snapshot
    rw [h.outputType, h.al]
    split
    · exact hs.xSum.divBy _
    · exact hs.x.divBy _
  have hshown : Tensor.Moved V (o.shown s) (o'.shown s') := by
    unfold shown
    rw [h.scale, h.al]
    exact (hs.x.scale _).divBy _
  have hstored : Option.Rel (Tensor.Moved V) (if o.store then some (o.snapshot k s) else none)
      (if o'.store then some (o'.snapshot k s') else none) := by
    rw [h.store]
    split
    · exact .some hsnapshot
    · exact .none
  have hmeasured : σ.rel (Option.Rel E)
      (o.error.elim (pure none) fun f => some <$> f (Tensor.scale o.scale (o.snapshot k s)))
      (o'.error.elim (pure none) fun f =>
        some <$> f (Tensor.scale o'.scale (o'.snapshot k s'))) := by
    rw [h.scale]
    exact σ.elim h.error (σ.pure .none) fun f f' hf =>
      σ.map (hf _ _ (hsnapshot.scale _)) fun _ _ he => .some he
  have hpresented : σ.rel (fun _ _ => True)
      (o.callback.elim (pure ()) fun f => f (o.offset + k) (o.shown s))
      (o'.callback.elim (pure ()) fun f => f (o'.offset + k) (o'.shown s')) := by
    rw [h.offset]
    exact σ.elim h.callback (σ.pure trivial) fun f f' hf => hf _ _ _ hshown
  rw [observe_bind, observe_bind]
  apply σ.bind hmeasured
  intro e e' he
  exact σ.bind hpresented fun _ _ _ => σ.pure ⟨hstored, he⟩

/-! ## §4. Runs of steps. -/

namespace Inner

variable [LawfulMonad m] [LawfulMonad m'] {q : ℕ} {p : Problem m ℝ Unit 𝕜}
variable {p' : Problem m' ℝ Unit 𝕜} {o : Observer m ℝ Unit 𝕜} {o' : Observer m' ℝ Unit 𝕜}

/-- Any number of steps in other coordinates. -/
theorem moved_steps (hp : Problem.Moved σ V Z q p p') (ho : Observer.Moved σ V E o o') (n k : ℕ)
    {s s' : Iterate Unit 𝕜} (hs : Iterate.Moved V Z s s') :
    σ.rel (fun out out' => Iterate.Moved V Z out.1 out'.1
        ∧ List.Forall₂ (Record.Moved V E) out.2 out'.2) (steps p o n k s) (steps p' o' n k s') := by
  induction n generalizing k s s' with
  | zero => exact σ.pure ⟨hs, .nil⟩
  | succ n ih =>
    unfold steps
    apply σ.bind (hp.advance hs)
    intro next next' hnext
    apply σ.bind (ho.observe (k + 1) hnext)
    intro record record' hrecord
    apply σ.bind (ih (k + 1) hnext)
    intro out out' hout
    exact σ.pure ⟨hout.1, .cons hrecord hout.2⟩

/-- What a run of steps returns is moved: last iterates and averages alike. -/
theorem moved_result (type : OutputType) (kIter : ℤ) {s s' : Iterate Unit 𝕜}
    (hs : Iterate.Moved V Z s s') {records records' : List (Record ℝ Unit 𝕜)}
    (hrecords : List.Forall₂ (Record.Moved V E) records records') :
    InnerResult.Moved V Z E (result type kIter s records) (result type kIter s' records') where
  x := by
    unfold result
    dsimp only
    split
    · exact hs.xSum.divBy _
    · exact hs.x
  y := by
    unfold result
    dsimp only
    split
    · exact hs.ySum.divBy _
    · exact hs.y
  iterates := List.rel_filterMap (fun _ _ h => h.snapshot) hrecords
  errors := List.rel_filterMap (fun _ _ h => h.error) hrecords

/-- **A run of steps in other coordinates.** -/
theorem moved_run (hp : Problem.Moved σ V Z q p p') (ho : Observer.Moved σ V E o o') (kIter : ℤ)
    {x x' y y' : Tensor Unit 𝕜} (hx : Tensor.Moved V x x') (hy : Tensor.Moved Z y y') :
    σ.rel (InnerResult.Moved V Z E) (run p o kIter x y) (run p' o' kIter x' y') := by
  unfold run
  rw [ho.outputType]
  apply σ.bind (moved_steps hp ho kIter.toNat 0 (Iterate.moved_start hx hy))
  intro out out' h
  exact σ.pure (moved_result _ _ h.1 h.2)

end Inner

/-! ## §5. Restarts. -/

variable (σ V Z E)

/-- The options agree in all that is not a map, and the error measures correspond. -/
structure Options.Moved (o : Options m ℝ Unit 𝕜) (o' : Options m' ℝ Unit 𝕜) : Prop where
  C1 : o'.C1 = o.C1
  C2 : o'.C2 = o.C2
  store : o'.store = o.store
  outputType : o'.outputType = o.outputType
  upsilon : o'.upsilon = o.upsilon
  bound : o'.bound = o.bound
  tau : o'.tau = o.tau
  display : o'.display = o.display
  q : o'.q = o.q
  error : Option.Rel (σ.Maps (Tensor.Moved V) E) o.error o'.error
  analysis : o'.analysis.isSome = o.analysis.isSome

/-- The schedule in other coordinates. -/
structure Schedule.Moved (s : Schedule m ℝ Unit 𝕜) (s' : Schedule m' ℝ Unit 𝕜) : Prop where
  b : Tensor.Moved Z s.b s'.b
  K : Operator.Moved σ V Z s.K s'.K
  epsilon : s'.epsilon = s.epsilon
  delta : s'.delta = s.delta
  prox : ∀ t, 0 < t → σ.Maps (Tensor.Moved V) (Tensor.Moved V) (s.prox · t) (s'.prox · t)
  kIter : s'.kIter = s.kIter
  options : Options.Moved σ V E s.options s'.options
  valid : s.options.Valid
  outputType : s'.outputType = s.outputType
  scale : s'.scale = s.scale
  callback : Option.Rel (fun f f' => ∀ k, σ.Maps (Tensor.Moved V) (fun _ _ => True) (f k) (f' k))
    s.callback s'.callback
  respects : Prox.Respects s.options.q Z

/-- The state of the restarts in other coordinates. -/
structure RestartState.Moved (state state' : RestartState ℝ Unit 𝕜) : Prop where
  psi : Tensor.Moved V state.psi state'.psi
  y : Tensor.Moved Z state.y state'.y
  eps : state'.eps = state.eps

/-- The record of a restart in other coordinates. -/
structure RestartRecord.Moved (r r' : RestartRecord ℝ Unit 𝕜) : Prop where
  iterates : List.Forall₂ (Tensor.Moved V) r.iterates r'.iterates
  errors : List.Forall₂ E r.errors r'.errors

/-- What restarts leave behind, in other coordinates. -/
structure Trail.Moved (trail trail' : Trail ℝ Unit 𝕜) : Prop where
  records : List.Forall₂ (RestartRecord.Moved V E) trail.records trail'.records
  als : trail'.als = trail.als
  epss : trail'.epss = trail.epss

variable {σ V Z E}

namespace Options.Moved

variable {o : Options m ℝ Unit 𝕜} {o' : Options m' ℝ Unit 𝕜} (h : Options.Moved σ V E o o')
include h

theorem boundOf : Rescaling.boundOf o' = Rescaling.boundOf o := by
  unfold Rescaling.boundOf
  rw [h.bound]

theorem stepSize : Schedule.stepSize o' = Schedule.stepSize o := by
  unfold Schedule.stepSize
  rw [h.tau, h.boundOf]

/-- The rescaling factor does not depend on the coordinates. -/
theorem factor (eps delta : ℝ) (kIter : ℤ) (q : Quantity ℝ) :
    Rescaling.factor eps delta kIter o' q = Rescaling.factor eps delta kIter o q := by
  unfold Rescaling.factor Rescaling.neededSteps
  rw [h.C1, h.C2, h.tau, h.upsilon, h.boundOf]

end Options.Moved

namespace Schedule.Moved

variable {s : Schedule m ℝ Unit 𝕜} {s' : Schedule m' ℝ Unit 𝕜}
variable (h : Schedule.Moved σ V Z E s s')
include h

theorem rescale (eps : ℝ) : Solver.rescale s' eps = Solver.rescale s eps := by
  unfold Solver.rescale
  rw [h.options.outputType, h.options.q, h.delta, h.kIter, h.options.factor]

/-- The inner problem of a restart in other coordinates. -/
theorem problem (al : ℝ) {step : ℝ} (hstep : 0 < step) :
    Problem.Moved σ V Z s.options.q (s.problem al step) (s'.problem al step) where
  b := h.b.scale al
  K := h.K
  primalStep := rfl
  dualStep := rfl
  epsilon := congrArg (al * ·) h.epsilon
  prox := h.prox step hstep
  size := rfl
  size' := by
    unfold Schedule.problem
    rw [h.options.q]
  respects := h.respects

/-- The observer of a restart in other coordinates. -/
theorem observer (al : ℝ) (type : OutputType) (offset : ℤ) :
    Observer.Moved σ V E (s.observer al type offset) (s'.observer al type offset) where
  al := rfl
  scale := h.scale
  outputType := rfl
  store := h.options.store
  error := h.options.error
  callback := h.callback
  offset := rfl

/-- The steps of a schedule are positive. -/
theorem stepSize_pos {step : ℝ} (hstep : stepSize s.options = .ok step) : 0 < step := by
  obtain ⟨L, hL, hstep⟩ := bind_eq_ok.1 hstep
  obtain ⟨-, rfl⟩ := Control.quotient_ok hstep
  unfold Rescaling.boundOf at hL
  cases hbound : s.options.bound with
  | none =>
    rw [hbound] at hL
    cases hL
  | some bound =>
    rw [hbound] at hL
    cases hL
    exact div_pos h.valid.tau_pos (h.valid.bound_pos _ hbound)

variable [LawfulMonad m] [LawfulMonad m']

/-- **One restart in other coordinates.** -/
theorem restart (al : ℝ) (offset : ℤ) {state state' : RestartState ℝ Unit 𝕜}
    (hstate : RestartState.Moved V Z state state') :
    σ.rel (fun out out' => RestartState.Moved V Z out.1 out'.1
        ∧ RestartRecord.Moved V E out.2 out'.2)
      (s.restart state al offset) (s'.restart state' al offset) := by
  unfold Schedule.restart
  rw [h.options.stepSize, h.outputType, h.kIter, h.scale]
  have hpositive : Agrees (fun step step' => step' = step ∧ 0 < step)
      (stepSize s.options) (stepSize s.options) :=
    (Agrees.refl _).mono fun step step' hstep heq => ⟨heq.symm, h.stepSize_pos hstep⟩
  refine σ.bind (σ.lift hpositive) ?_
  rintro step _ ⟨rfl, hstep⟩
  refine σ.bind (σ.lift_refl _) ?_
  rintro type _ rfl
  apply σ.bind (Inner.moved_run (h.problem al hstep) (h.observer al type offset) s.kIter
    (hstate.psi.scale al) hstate.y)
  intro r r' hr
  refine σ.pure ⟨⟨hr.x.divBy al, hr.y, ?_⟩, ?_, hr.errors⟩
  · unfold nextError
    rw [hstate.eps, h.options.upsilon, h.delta]
  · exact List.rel_map (fun _ _ hx => hx.scale _) hr.iterates

/-- **Any number of restarts in other coordinates.** -/
theorem restarts {env : Environment m ℝ Unit 𝕜} {env' : Environment m' ℝ Unit 𝕜}
    (hreport : ∀ event, σ.rel (fun _ _ => True) (env.report event) (env'.report event))
    (n j : ℕ) {state state' : RestartState ℝ Unit 𝕜}
    (hstate : RestartState.Moved V Z state state') :
    σ.rel (fun out out' => RestartState.Moved V Z out.1 out'.1 ∧ Trail.Moved V E out.2 out'.2)
      (Solver.restarts env s n j state) (Solver.restarts env' s' n j state') := by
  induction n generalizing j state state' with
  | zero => exact σ.pure ⟨hstate, .nil, rfl, rfl⟩
  | succ n ih =>
    rw [Solver.restarts_succ, Solver.restarts_succ, hstate.eps, h.rescale, h.options.display,
      h.scale, h.kIter]
    refine σ.bind (σ.lift_refl _) ?_
    rintro al _ rfl
    apply σ.bind (σ.tell hreport _ _)
    intro _ _ _
    apply σ.bind (h.restart al _ hstate)
    intro out out' hout
    apply σ.bind (ih (j + 1) hout.1)
    intro later later' hlater
    refine σ.pure ⟨hlater.1, .cons hout.2 hlater.2.records, ?_, ?_⟩
    · exact congrArg (al :: ·) hlater.2.als
    · exact congrArg (_ :: ·) hlater.2.epss

end Schedule.Moved

end PrimalDual
