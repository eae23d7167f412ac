/-
  PrimalDual.Proofs.Coordinates.Runs
  ──────────────────────────────────
  **RUNS IN OTHER COORDINATES.**

  Requests whose maps have no effect but that they may fail are compared in
  `Except`.  If they correspond there, they still do with watched observers
  (`Request.Moved.watched`), so the two runs show corresponding iterates in
  the same order.

  Solutions and calls are then related by whatever holds of corresponding
  tensors (`Request.Moved.related`).
-/
import PrimalDual.Proofs.Coordinates.Solve

namespace PrimalDual

open Tensor

variable {𝕜 : Type} [RCLike 𝕜] {D D' N N' S S' Q Q' : List ℕ} {q : ℕ}

/-! ## §1. Maps in other coordinates. -/

/-- The second map does on moved tensors what the first one does on tensors of the shape `D`. -/
structure Conjugates (V : Space 𝕜 D →ₗᵢ[𝕜] Space 𝕜 D') (U : Space 𝕜 S →ₗᵢ[𝕜] Space 𝕜 S')
    (f f' : Tensor Unit 𝕜 → Except (Failure ℝ) (Tensor Unit 𝕜)) : Prop where
  shape : ∀ x u, x.shape = D → f x = .ok u → u.shape = S
  map : ∀ x, x.shape = D → f' (x.move V) = Tensor.move U <$> f x

/-- Maps that are conjugate take moved tensors to moved tensors, or fail alike. -/
theorem Conjugates.maps {V : Space 𝕜 D →ₗᵢ[𝕜] Space 𝕜 D'} {U : Space 𝕜 S →ₗᵢ[𝕜] Space 𝕜 S'}
    {f f' : Tensor Unit 𝕜 → Except (Failure ℝ) (Tensor Unit 𝕜)} (h : Conjugates V U f f') :
    (Agrees.simulation ℝ).Maps (Moved V) (Moved U) f f' := by
  intro x x' hx
  rw [hx.eq_move, h.map x hx.shape]
  exact .of_map fun u hu => moved_move U (h.shape x u hx.shape hu)

/-- The second operator is the first one in other coordinates: `A' V = U A` and `A'ᴴ U = V Aᴴ`. -/
structure Operator.Corresponds (V : Space 𝕜 D →ₗᵢ[𝕜] Space 𝕜 D')
    (U : Space 𝕜 S →ₗᵢ[𝕜] Space 𝕜 S') (A A' : Operator (Except (Failure ℝ)) ℝ Unit 𝕜) : Prop where
  forward : Conjugates V U A.forward A'.forward
  adjoint : Conjugates U V A.adjoint A'.adjoint

/-- Both stand for operators, and these correspond. -/
def Representation.Corresponds (V : Space 𝕜 D →ₗᵢ[𝕜] Space 𝕜 D')
    (U : Space 𝕜 S →ₗᵢ[𝕜] Space 𝕜 S')
    (A A' : Representation (Except (Failure ℝ)) ℝ Unit 𝕜) : Prop :=
  ∃ K K', A.toOperator = .ok K ∧ A'.toOperator = .ok K' ∧ K.Corresponds V U K'

/-- Representations that correspond are read as operators that correspond. -/
theorem Representation.Corresponds.agrees {V : Space 𝕜 D →ₗᵢ[𝕜] Space 𝕜 D'}
    {U : Space 𝕜 S →ₗᵢ[𝕜] Space 𝕜 S'} {A A' : Representation (Except (Failure ℝ)) ℝ Unit 𝕜}
    (h : A.Corresponds V U A') :
    Agrees (Operator.Moved (Agrees.simulation ℝ) V U) A.toOperator A'.toOperator := by
  obtain ⟨K, K', hK, hK', h⟩ := h
  rw [hK, hK']
  exact .ok ⟨h.forward.maps, h.adjoint.maps⟩

/-! ## §2. Watched requests. -/

/-- Calls of the same observer with related tensors. -/
inductive Call.Related {κ α κ' α' : Type} (P : Tensor κ α → Tensor κ' α' → Prop) :
    Call κ α → Call κ' α' → Prop where
  | measured {x : Tensor κ α} {x' : Tensor κ' α'} (h : P x x') :
      Call.Related P (.measured x) (.measured x')
  | shown (k : ℤ) {x : Tensor κ α} {x' : Tensor κ' α'} (h : P x x') :
      Call.Related P (.shown k x) (.shown k x')

namespace Call.Related

variable {κ α κ' α' : Type}

theorem mono {P P' : Tensor κ α → Tensor κ' α' → Prop} {call : Call κ α} {call' : Call κ' α'}
    (h : Call.Related P call call') (hP : ∀ x x', P x x' → P' x x') :
    Call.Related P' call call' := by
  cases h with
  | measured h => exact .measured (hP _ _ h)
  | shown k h => exact .shown k (hP _ _ h)

theorem eq {call call' : Call κ α} (h : Call.Related (· = ·) call call') : call = call' := by
  cases h with
  | measured h => exact congrArg Call.measured h
  | shown k h => exact congrArg (Call.shown k) h

end Call.Related

section Lift

variable {m m' : Type → Type} [Monad m] [Monad m']
variable [MonadLiftT (Except (Failure ℝ)) m] [MonadLiftT (Except (Failure ℝ)) m']
variable [LawfulMonadLiftT (Except (Failure ℝ)) m] [LawfulMonadLiftT (Except (Failure ℝ)) m']
variable {V : Space 𝕜 D →ₗᵢ[𝕜] Space 𝕜 D'} {U : Space 𝕜 S →ₗᵢ[𝕜] Space 𝕜 S'}

/-- Operators that correspond still do in other monads. -/
theorem Operator.Moved.lift (σ : Simulation m m' ℝ)
    {K K' : Operator (Except (Failure ℝ)) ℝ Unit 𝕜}
    (h : Operator.Moved (Agrees.simulation ℝ) V U K K') :
    Operator.Moved σ V U (K.lift : Operator m ℝ Unit 𝕜) (K'.lift : Operator m' ℝ Unit 𝕜) where
  forward x x' hx := by
    rw [Operator.forward_lift, Operator.forward_lift]
    exact σ.lift (h.forward x x' hx)
  adjoint y y' hy := by
    rw [Operator.adjoint_lift, Operator.adjoint_lift]
    exact σ.lift (h.adjoint y y' hy)

/-- What corresponds without effects corresponds in every monad. -/
theorem Representation.agrees_lift (σ : Simulation m m' ℝ)
    {A A' : Representation (Except (Failure ℝ)) ℝ Unit 𝕜}
    (h : Agrees (Operator.Moved (Agrees.simulation ℝ) V U) A.toOperator A'.toOperator) :
    Agrees (Operator.Moved σ V U) (A.lift : Representation m ℝ Unit 𝕜).toOperator
      (A'.lift : Representation m' ℝ Unit 𝕜).toOperator := by
  rw [Representation.toOperator_lift, Representation.toOperator_lift, map_eq_pure_bind,
    map_eq_pure_bind]
  exact h.bind fun K K' hK => .ok (hK.lift σ)

end Lift

variable {V : Space 𝕜 D →ₗᵢ[𝕜] Space 𝕜 D'} {U : Space 𝕜 S →ₗᵢ[𝕜] Space 𝕜 S'}
variable {W : Space 𝕜 Q →ₗᵢ[𝕜] Space 𝕜 Q'} {hQ : Q.prod = q} {hQ' : Q'.prod = q}
variable {E : ℝ → ℝ → Prop} {Z : Space 𝕜 N →ₗᵢ[𝕜] Space 𝕜 N'}

/-- The simulation of runs that show iterates in other coordinates. -/
abbrev Watched.moved (V : Space 𝕜 D →ₗᵢ[𝕜] Space 𝕜 D') :
    Simulation (Watched ℝ Unit 𝕜) (Watched ℝ Unit 𝕜) ℝ :=
  Watched.simulation (Call.Related (Moved V))

/-- Options that correspond still do when their observers are watched. -/
theorem Options.Moved.watched {o o' : Options (Except (Failure ℝ)) ℝ Unit 𝕜}
    (h : Options.Moved (Agrees.simulation ℝ) V E o o') :
    Options.Moved (Watched.moved V) V E o.watched o'.watched where
  C1 := h.C1
  C2 := h.C2
  store := h.store
  outputType := h.outputType
  upsilon := h.upsilon
  bound := h.bound
  tau := h.tau
  display := h.display
  q := h.q
  error := rel_option_map h.error fun f f' hf x x' hx =>
    Watched.simulation_measure (hf x x' hx) (.measured hx)
  analysis := by
    unfold Options.watched
    rw [Option.isSome_map, Option.isSome_map, h.analysis]

/-- **Watched requests correspond** if the requests do. -/
theorem Request.Moved.watched {r r' : Request (Except (Failure ℝ)) ℝ Unit 𝕜}
    (h : Request.Moved (Agrees.simulation ℝ) V E U W hQ hQ' r r') :
    Request.Moved (Watched.moved V) V E U W hQ hQ' r.watched r'.watched where
  A := Representation.agrees_lift _ h.A
  b := h.b
  epsilon := h.epsilon
  delta := h.delta
  prox t ht x x' hx := (Watched.moved V).lift (h.prox t ht x x' hx)
  x0 := h.x0
  y0 := h.y0
  nIter := h.nIter
  kIter := h.kIter
  options := h.options.watched
  analysis := rel_option_map h.analysis fun _ _ hB => Representation.agrees_lift _ hB
  callback := rel_option_map h.callback fun _ _ hf k x x' hx =>
    Watched.simulation_display (hf k x x' hx) (.shown k hx)
  q := h.q
  valid := ⟨h.valid.C1_pos, h.valid.C2_pos, h.valid.upsilon_pos, h.valid.upsilon_lt_one,
    h.valid.tau_pos, h.valid.bound_pos⟩
  analysis_none hnone := h.analysis_none (Option.map_eq_none_iff.1 hnone)
  keepsClip := h.keepsClip

/-! ## §3. Solutions and calls. -/

/-- Solutions with the same numbers.  Their primal tensors are related by `P`, the dual ones by
`P'` and the error values by `E`. -/
structure Solution.Related {m m' : Type → Type} {κ α κ' α' : Type}
    (P P' : Tensor κ α → Tensor κ' α' → Prop) (E : ℝ → ℝ → Prop) (sol : Solution m ℝ κ α)
    (sol' : Solution m' ℝ κ' α') : Prop where
  x : P sol.x sol'.x
  y : P' sol.y sol'.y
  iterates : List.Forall₂ (List.Forall₂ P) sol.iterates sol'.iterates
  errors : List.Forall₂ E sol.errors sol'.errors
  bound : sol'.options.bound = sol.options.bound
  scale : sol'.scale = sol.scale
  alHistory : sol'.alHistory = sol.alHistory
  epsHistory : sol'.epsHistory = sol.epsHistory

variable {P P' : Tensor Unit 𝕜 → Tensor Unit 𝕜 → Prop}

/-- A relation that follows from the coordinates holds of what solutions record. -/
theorem Solution.Moved.related {m m' : Type → Type} [Monad m] [Monad m']
    [MonadLiftT (Except (Failure ℝ)) m] [MonadLiftT (Except (Failure ℝ)) m']
    {σ : Simulation m m' ℝ} {sol : Solution m ℝ Unit 𝕜} {sol' : Solution m' ℝ Unit 𝕜}
    (h : Solution.Moved σ V E Z sol sol') (hP : ∀ x x', Tensor.Moved V x x' → P x x')
    (hP' : ∀ y y', Tensor.Moved Z y y' → P' y y') : sol.Related P P' E sol' where
  x := hP _ _ h.x
  y := hP' _ _ h.y
  iterates := h.iterates.imp fun _ _ hl => hl.imp hP
  errors := h.errors
  bound := h.options.bound
  scale := h.scale
  alHistory := h.alHistory
  epsHistory := h.epsHistory

namespace Request.Moved

variable {env env' : Environment (Except (Failure ℝ)) ℝ Unit 𝕜}
variable {r r' : Request (Except (Failure ℝ)) ℝ Unit 𝕜}

/-- **Corresponding requests have corresponding runs.**  Both are solved or neither is, and then
solutions and calls of the observers correspond.  They are related by whatever holds of
corresponding tensors. -/
theorem related (h : Request.Moved (Agrees.simulation ℝ) V E U W hQ hQ' r r')
    (hreport : ∀ event, Agrees (fun _ _ => True) (env.report event) (env'.report event))
    (hdraw : r.options.bound = none → Agrees (Tensor.Moved V) (env.draw D ()) (env'.draw D' ()))
    (hP : ∀ x x', Tensor.Moved V x x' → P x x')
    (hP' : ∀ y y', Tensor.Moved (dualCoordinates U W hQ hQ') y y' → P' y y') :
    Agrees (Solution.Related P P' E) (Solver.solve env r) (Solver.solve env' r')
      ∧ Agrees (fun out out' => List.Forall₂ (Call.Related P) out.2 out'.2)
        (Solver.watch env r) (Solver.watch env' r') := by
  have hsolve := h.solve hreport hdraw
  have hreport' : ∀ event, (Watched.moved V).rel (fun _ _ => True) (env.watched.report event)
      (env'.watched.report event) := fun event => (Watched.moved V).lift (hreport event)
  have hdraw' : r.options.bound = none → (Watched.moved V).rel (Tensor.Moved V)
      (env.watched.draw D ()) (env'.watched.draw D' ()) :=
    fun hnone => (Watched.moved V).lift (hdraw hnone)
  have hwatch := h.watched.solve hreport' hdraw' [] [] .nil
  constructor
  · exact Agrees.mono hsolve fun sol sol' _ hsol => hsol.related hP hP'
  · exact Agrees.mono hwatch fun out out' _ hout => hout.2.imp fun _ _ hcall => hcall.mono hP

end Request.Moved

end PrimalDual
