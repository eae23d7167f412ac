/-
  PrimalDual.Proofs.Calls.Forms
  ─────────────────────────────
  **THE FORM IN WHICH AN OPERATOR IS GIVEN DOES NOT MATTER.**

  A matrix may be handed over as a tensor or an array, as the operator of the
  matrix, as the pair of its products in a tuple or a list, as one map of a
  tensor and a direction, or as what any of these is read as (`Represents`).  All of them are read as
  operators with the same maps (`Represents.sameMaps`), and a run does not
  look at anything else:

    * `Coupled` — two computations are coupled if they are the two halves of
        one; this is a comparison of a monad with itself, so requests that
        are alike have coupled runs.
    * `Coupled.eq_map` — coupled computations with equal results are equal,
        failures and effects included.

  Nothing is asked of the arithmetic, and of the monad only its laws.
-/
import PrimalDual.Proofs.Calls.Requests

namespace PrimalDual

variable {m : Type → Type} {R κ α : Type} [Monad m]

/-! ## §1. Coupled computations. -/

/-- The two computations are the halves of one, whose results are related. -/
def Coupled {β β' : Type} (P : β → β' → Prop) (x : m β) (x' : m β') : Prop :=
  ∃ z : m { p : β × β' // P p.1 p.2 }, (fun p => p.1.1) <$> z = x ∧ (fun p => p.1.2) <$> z = x'

namespace Coupled

variable [LawfulMonad m] {β β' γ γ' : Type} {P : β → β' → Prop} {Q : γ → γ' → Prop}

theorem pure {a : β} {a' : β'} (h : P a a') : Coupled P (Pure.pure a : m β) (Pure.pure a') :=
  ⟨Pure.pure ⟨(a, a'), h⟩, map_pure _ _, map_pure _ _⟩

theorem bind {x : m β} {x' : m β'} {f : β → m γ} {f' : β' → m γ'} (hx : Coupled P x x')
    (hf : ∀ a a', P a a' → Coupled Q (f a) (f' a')) : Coupled Q (x >>= f) (x' >>= f') := by
  obtain ⟨z, rfl, rfl⟩ := hx
  choose w hw hw' using hf
  refine ⟨z >>= fun p => w p.1.1 p.1.2 p.2, ?_, ?_⟩
  · rw [map_bind, bind_map_left]
    simp only [hw]
  · rw [map_bind, bind_map_left]
    simp only [hw']

theorem refl {P : β → β → Prop} (hP : ∀ a, P a a) (x : m β) : Coupled P x x :=
  ⟨(fun a => ⟨(a, a), hP a⟩) <$> x, by simp, by simp⟩

/-- Where the one result is a function of the other, the computations are too. -/
theorem eq_map {x : m β} {x' : m β'} {f : β → β'} (h : Coupled (fun a a' => a' = f a) x x') :
    x' = f <$> x := by
  obtain ⟨z, rfl, rfl⟩ := h
  rw [← comp_map]
  exact congrArg (· <$> z) (funext fun p => p.2)

end Coupled

section Comparison

variable [LawfulMonad m] [MonadLiftT (Except (Failure R)) m]
variable [LawfulMonadLiftT (Except (Failure R)) m]

/-- Results, and failures, that match are coupled. -/
theorem Coupled.lift {β β' : Type} {P : β → β' → Prop} {x : Except (Failure R) β}
    {x' : Except (Failure R) β'} (h : Matches P x x') :
    Coupled P (liftM x : m β) (liftM x' : m β') := by
  cases h with
  | @ok a a' h =>
    refine ⟨liftM (.ok ⟨(a, a'), h⟩ : Except (Failure R) { p : β × β' // P p.1 p.2 }), ?_, ?_⟩
    · rw [← liftM_map]
      rfl
    · rw [← liftM_map]
      rfl
  | error e =>
    refine ⟨liftM (.error e : Except (Failure R) { p : β × β' // P p.1 p.2 }), ?_, ?_⟩
    · rw [← liftM_map]
      rfl
    · rw [← liftM_map]
      rfl

/-- Coupling, whatever the sites that are passed. -/
def Comparison.coupling (m : Type → Type) (R : Type) [Monad m] [LawfulMonad m]
    [MonadLiftT (Except (Failure R)) m] [LawfulMonadLiftT (Except (Failure R)) m] :
    Comparison m m R where
  rel _ P x x' := Coupled P x x'
  pure h := Coupled.pure h
  bind hx hf := Coupled.bind hx hf
  lift hx _ := Coupled.lift hx

theorem Comparison.coupling_tolerant : (Comparison.coupling m R).Tolerant :=
  fun _ e => Coupled.lift (.error e)

end Comparison

/-! ## §2. The forms of a matrix. -/

variable [MonadLiftT (Except (Failure R)) m] [Control R] [Kinds κ] [Entry α R κ]

/-- The products with a matrix and with its conjugate transpose. -/
def products (m : Type → Type) [Monad m] [MonadLiftT (Except (Failure R)) m] (M : Tensor κ α) :
    List (Component m κ α) :=
  [.map fun x => liftM (M.matmul x : Except (Failure R) (Tensor κ α)),
    .map fun y => liftM (M.adjointMatmul y : Except (Failure R) (Tensor κ α))]

/-- The forms in which a matrix is given as an operator. -/
inductive Represents (M : Tensor κ α) : Representation m R κ α → Prop where
  | matrix : Represents M (.matrix M)
  | array : Represents M (.array M)
  | operator : Represents M (.operator (.matrix M))
  | pair : Represents M (.components (products m M))
  | list : Represents M (.list (products m M))
  /-- One map, whatever it does with other modes. -/
  | modal {f : Tensor κ α → ℤ → m (Tensor κ α)}
      (hforward : ∀ x, f x 1 = liftM (M.matmul x : Except (Failure R) (Tensor κ α)))
      (hadjoint : ∀ y, f y 0 = liftM (M.adjointMatmul y : Except (Failure R) (Tensor κ α))) :
      Represents M (.modal f)
  /-- What any of the forms is read as. -/
  | reading {A : Representation m R κ α} {op : Operator m R κ α} (hA : Represents M A)
      (hop : A.toOperator = .ok op) : Represents M (.operator op)

namespace Operator

/-- The maps of the one operator are those of the other. -/
structure SameMaps (op op' : Operator m R κ α) : Prop where
  forward : ∀ x, op'.forward x = op.forward x
  adjoint : ∀ y, op'.adjoint y = op.adjoint y

variable {op op' op'' : Operator m R κ α}

theorem SameMaps.refl (op : Operator m R κ α) : op.SameMaps op := ⟨fun _ => rfl, fun _ => rfl⟩

theorem SameMaps.symm (h : op.SameMaps op') : op'.SameMaps op :=
  ⟨fun x => (h.forward x).symm, fun y => (h.adjoint y).symm⟩

theorem SameMaps.trans (h : op.SameMaps op') (h' : op'.SameMaps op'') : op.SameMaps op'' :=
  ⟨fun x => (h'.forward x).trans (h.forward x), fun y => (h'.adjoint y).trans (h.adjoint y)⟩

/-- Operators with the same maps are applied alike in every mode, failures included. -/
theorem SameMaps.apply (h : op.SameMaps op') (x : Tensor κ α) (mode : ℤ) :
    op'.apply x mode = op.apply x mode := by
  unfold Operator.apply
  rw [h.forward, h.adjoint]

/-- An operator is applied forwards for mode 1 and by its adjoint for mode 0, and it refuses
every other mode. -/
structure AppliedByMode (op : Operator m R κ α) : Prop where
  forward : ∀ x, op.apply x 1 = op.forward x
  adjoint : ∀ y, op.apply y 0 = op.adjoint y
  refused : ∀ x mode, mode ≠ 1 → mode ≠ 0 →
    op.apply x mode = liftM (.error (.unknownMode mode) : Except (Failure R) (Tensor κ α))

theorem appliedByMode (op : Operator m R κ α) : op.AppliedByMode where
  forward _ := if_pos rfl
  adjoint _ := (if_neg (by decide)).trans (if_pos rfl)
  refused _ _ hforward hadjoint := (if_neg hforward).trans (if_neg hadjoint)

end Operator

/-- **Every form of a matrix is read as an operator with its products.** -/
theorem Represents.sameMaps {M : Tensor κ α} (hM : M.axes = 2) {A : Representation m R κ α}
    (hA : Represents M A) : ∃ op, A.toOperator = .ok op ∧ (Operator.matrix M).SameMaps op := by
  induction hA with
  | matrix | array => exact ⟨.matrix M, if_pos hM, .refl _⟩
  | operator => exact ⟨.matrix M, rfl, .refl _⟩
  | pair | list => exact ⟨_, rfl, ⟨fun _ => rfl, fun _ => rfl⟩⟩
  | modal hforward hadjoint => exact ⟨_, rfl, ⟨hforward, hadjoint⟩⟩
  | @reading A op _ hop ih =>
    obtain ⟨op', hop', hsame⟩ := ih
    cases hop.symm.trans hop'
    exact ⟨op, rfl, hsame⟩

/-- The two are the same, or forms of one matrix. -/
def Representation.Interchangeable (A A' : Representation m R κ α) : Prop :=
  A = A' ∨ ∃ M, M.axes = 2 ∧ Represents M A ∧ Represents M A'

theorem Representation.Interchangeable.toOperator {A A' : Representation m R κ α}
    (h : A.Interchangeable A') : Matches Operator.SameMaps A.toOperator A'.toOperator := by
  obtain rfl | ⟨M, hM, hA, hA'⟩ := h
  · cases A.toOperator with
    | error e => exact .error e
    | ok op => exact .ok (.refl op)
  · obtain ⟨op, hop, hsame⟩ := hA.sameMaps hM
    obtain ⟨op', hop', hsame'⟩ := hA'.sameMaps hM
    rw [hop, hop']
    exact .ok (hsame.symm.trans hsame')

/-! ## §3. Runs. -/

/-- The request with its operators in other forms. -/
def Request.inForms (r : Request m R κ α) (A : Representation m R κ α)
    (analysis : Option (Representation m R κ α)) : Request m R κ α :=
  { r with
    A := A
    options := { r.options with analysis := analysis } }

/-- The solution whose options name the analysis operator in another form. -/
def Solution.inForm (sol : Solution m R κ α) (analysis : Option (Representation m R κ α)) :
    Solution m R κ α :=
  { sol with options := { sol.options with analysis := analysis } }

variable {r : Request m R κ α} {A : Representation m R κ α}
variable {analysis : Option (Representation m R κ α)}

omit [Monad m] [MonadLiftT (Except (Failure R)) m] [Control R] in
/-- Twins that differ in the forms of their operators have solutions that differ in the form
which their options name. -/
theorem Prepared.Twins.solution_inForm {L : R} {ready ready' : Prepared m R κ α}
    (h : Prepared.Twins r (r.inForms A analysis) L ready ready') (nIter : ℤ)
    (final : RestartState R κ α) {trail trail' : Trail R κ α}
    (htrail : Trail.Like True True trail trail') :
    Solver.solution nIter ready'.schedule final trail'
      = (Solver.solution nIter ready.schedule final trail).inForm analysis := by
  unfold Solver.solution Solution.inForm
  rw [h.scale, h.kIter, h.kIter', h.options, h.options', htrail.als, htrail.epss,
    htrail.iterates trivial, List.flatMap_def, List.flatMap_def, htrail.errors trivial]
  rfl

section Runs

variable [LawfulMonad m] [LawfulMonadLiftT (Except (Failure R)) m]

/-- Operators with the same maps have coupled maps. -/
theorem Operator.SameMaps.alike {fwd adj : List (Site R)}
    {op op' : Operator m R κ α} (h : op.SameMaps op') :
    Operator.Alike (Comparison.coupling m R) fwd adj op op' where
  forward x := by
    rw [h.forward]
    exact Coupled.refl (fun _ => rfl) _
  adjoint y := by
    rw [h.adjoint]
    exact Coupled.refl (fun _ => rfl) _

theorem Representation.Interchangeable.alike {fwd adj : List (Site R)}
    {A A' : Representation m R κ α} (h : A.Interchangeable A') :
    Matches (Operator.Alike (Comparison.coupling m R) fwd adj) A.toOperator A'.toOperator :=
  h.toOperator.mono fun _ _ hsame => hsame.alike

/-- Requests in other forms are alike. -/
theorem Request.inForms_alike (hA : r.A.Interchangeable A)
    (hanalysis : Option.Rel Representation.Interchangeable r.options.analysis analysis) :
    Request.Alike (Comparison.coupling m R) [] True True r (r.inForms A analysis) where
  A := hA.alike
  b := rfl
  epsilon := rfl
  delta := rfl
  prox _ _ := Coupled.refl (fun _ => rfl) _
  x0 := rfl
  y0 := rfl
  nIter := rfl
  kIter := rfl
  options := by
    refine ⟨rfl, rfl, rfl, rfl, rfl, rfl, rfl, ?_⟩
    show analysis.isSome = r.options.analysis.isSome
    generalize r.options.analysis = B at hanalysis
    cases hanalysis <;> rfl
  analysis := by
    show Option.Rel _ r.options.analysis analysis
    generalize r.options.analysis = B at hanalysis ⊢
    cases hanalysis with
    | none => exact .none
    | some h => exact .some h.alike
  observe _ _ _ _ _ _ := Coupled.refl (fun _ => ⟨fun _ => rfl, fun _ => rfl⟩) _

/-- A run with its operators in other forms is the same run. -/
theorem Solver.solve_inForms (env : Environment m R κ α) (hA : r.A.Interchangeable A)
    (hanalysis : Option.Rel Representation.Interchangeable r.options.analysis analysis) :
    solve env (r.inForms A analysis) = (Solution.inForm · analysis) <$> solve env r := by
  have halike := Request.inForms_alike hA hanalysis
  have htell : ∀ event, (Comparison.coupling m R).rel [] (· = ·)
      (env.tell r.options.display event)
      (env.tell (r.inForms A analysis).options.display event) :=
    fun _ => Coupled.refl (fun _ => rfl) _
  apply Coupled.eq_map
  rw [solve_carryOut, solve_carryOut]
  -- The two preparations make twins, whatever is drawn and reported on the way.
  have hprepare : Coupled (fun ready ready' => ∃ L, Prepared.Twins r (r.inForms A analysis) L
      ready ready') (prepare env r) (prepare env (r.inForms A analysis)) :=
    halike.prepare Comparison.coupling_tolerant
      ⟨fun _ _ => Coupled.refl (fun _ => rfl) _, htell⟩
  refine hprepare.bind ?_
  rintro ready ready' ⟨L, hready⟩
  have hannounce := hready.announce (σ := Comparison.coupling m R) halike.options rfl rfl
    (fun event => Coupled.refl (fun _ => rfl) (env.report event)) r.nIter
  exact hready.carryOut_of_trails (Q := fun sol sol' => sol' = sol.inForm analysis) halike htell
    hannounce fun final trail trail' htrail => hready.solution_inForm r.nIter final htrail

/-- **The form in which an operator is given does not matter.**  Every form of a matrix is
read as an operator with the products of the matrix, in every mode.  Reading is idempotent.
Every operator is applied forwards for mode 1 and by its adjoint for mode 0, and refuses any
other mode as a bad value.  Requests whose operators are given in other forms have the same
runs: the same solution, but for the form that its options name, or the same failure. -/
theorem Representation.form_immaterial (env : Environment m R κ α) :
    (∀ M : Tensor κ α, M.axes = 2 → ∀ A : Representation m R κ α, Represents M A →
      ∃ op, A.toOperator = .ok op
        ∧ (∀ x, op.forward x = (Operator.matrix M : Operator m R κ α).forward x)
        ∧ (∀ y, op.adjoint y = (Operator.matrix M : Operator m R κ α).adjoint y)
        ∧ ∀ x mode, op.apply x mode = (Operator.matrix M : Operator m R κ α).apply x mode)
    ∧ (∀ (A : Representation m R κ α) (op : Operator m R κ α), A.toOperator = .ok op →
      (Representation.operator op).toOperator = .ok op)
    ∧ (∀ op : Operator m R κ α, op.AppliedByMode)
    ∧ (∀ mode, (Failure.unknownMode mode : Failure R).category = .value)
    ∧ ∀ (r : Request m R κ α) (A : Representation m R κ α)
      (analysis : Option (Representation m R κ α)), r.A.Interchangeable A →
      Option.Rel Representation.Interchangeable r.options.analysis analysis →
      Solver.solve env (r.inForms A analysis)
        = (Solution.inForm · analysis) <$> Solver.solve env r := by
  refine ⟨?_, fun _ op _ => toOperator_operator op, Operator.appliedByMode,
    fun _ => rfl, fun r A analysis hA hanalysis => Solver.solve_inForms env hA hanalysis⟩
  intro M hM A hA
  obtain ⟨op, hop, hsame⟩ := hA.sameMaps hM
  exact ⟨op, hop, hsame.forward, hsame.adjoint, hsame.apply⟩

end Runs

/-- A matrix that is neither symmetric nor real. -/
noncomputable def skew : Tensor Unit ℂ := Tensor.tabulate () [2, 2] fun i =>
  if i = 1 then Complex.I else 0

/-- One map for both of its products. -/
noncomputable def skewMap (x : Tensor Unit ℂ) (mode : ℤ) : Except (Failure ℝ) (Tensor Unit ℂ) :=
  if mode = 1 then skew.matmul x else skew.adjointMatmul x

/-- A problem with the matrix. -/
noncomputable def skewRequest : Request (Except (Failure ℝ)) ℝ Unit ℂ where
  A := .matrix skew
  b := Tensor.tabulate () [2] fun _ => 1
  epsilon := 0
  delta := 1
  prox x _ := .ok x
  x0 := none
  y0 := none
  nIter := 2
  kIter := 3
  options := ⟨1, 1, true, .averaged, 1 / 2, some 1, 1, false, none, none, 0⟩
  callback := none

theorem form_immaterial_skew : skew.axes = 2
    ∧ (∃ op, (Representation.modal skewMap : Representation _ ℝ _ _).toOperator = .ok op
      ∧ ∀ y, op.adjoint y
        = (Operator.matrix skew : Operator (Except (Failure ℝ)) ℝ Unit ℂ).adjoint y)
    ∧ ∀ env, Solver.solve env (skewRequest.inForms (.modal skewMap) none)
      = (Solution.inForm · none) <$> Solver.solve env skewRequest := by
  have haxes : skew.axes = 2 := rfl
  have hmodal : Represents skew (.modal skewMap : Representation _ ℝ _ _) :=
    .modal (fun _ => if_pos rfl) fun _ => if_neg (by decide)
  refine ⟨haxes, ?_, ?_⟩
  · obtain ⟨op, hop, -, hadjoint, -⟩ := (Representation.form_immaterial
      ⟨fun _ _ => .error .callerFailed, fun _ => .ok ()⟩).1 skew haxes _ hmodal
    exact ⟨op, hop, hadjoint⟩
  · intro env
    exact (Representation.form_immaterial env).2.2.2.2 skewRequest _ _
      (.inr ⟨skew, haxes, .matrix, hmodal⟩) .none

end PrimalDual
