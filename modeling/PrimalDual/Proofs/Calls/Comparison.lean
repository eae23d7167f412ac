/-
  PrimalDual.Proofs.Calls.Comparison
  ──────────────────────────────────
  **TWO RUNS ON THE SAME DATA, CALL BY CALL.**

  A run leaves the solver at a few *sites*: it applies the operators of its
  request, its proximal map and its observers.  All else that it does is
  decided by the results of these calls.

  A `Comparison` of two monads relates their computations, for each list of
  sites that they pass: it is kept by `pure`, by `bind`, where the lists are
  joined, and by what is carried over from `Except` and is routine.  If two
  requests have the same data, and their maps are related at each site, then
  their runs are related along the *plan* of the run, function by function:

      Operator.Alike.flattened, .stacked       operators
      Problem.Alike.advance                    one step
      Schedule.Alike.restart, .restarts        restarts
-/
import PrimalDual.Proofs.Calls.Routine
import PrimalDual.Proofs.Run.Course

namespace PrimalDual

/-! ## §1. Sites and plans. -/

/-- The operators of a request. -/
inductive Part where
  | measurement
  | analysis
deriving DecidableEq

/-- The places at which a run leaves the solver. -/
inductive Site (R : Type) where
  | forward (part : Part)
  | adjoint (part : Part)
  /-- The proximal map, with its step. -/
  | prox (t : R)
  | measure
  | callback

namespace Site

variable {R : Type}

/-- The sites of one application of the stacked operator. -/
def forwards (analysis : Bool) : List (Site R) :=
  if analysis then [forward .measurement, forward .analysis] else [forward .measurement]

/-- The sites of one application of its adjoint. -/
def adjoints (analysis : Bool) : List (Site R) :=
  if analysis then [adjoint .measurement, adjoint .analysis] else [adjoint .measurement]

/-- The sites of an observation. -/
def shown (measured displayed : Bool) : List (Site R) :=
  (if measured then [measure] else []) ++ if displayed then [callback] else []

/-- A list of sites, passed a number of times. -/
def repeated (n : ℕ) (sites : List (Site R)) : List (Site R) := (List.replicate n sites).flatten

theorem repeated_succ (n : ℕ) (sites : List (Site R)) :
    repeated (n + 1) sites = sites ++ repeated n sites := rfl

theorem repeated_mul (n k : ℕ) (sites : List (Site R)) :
    repeated n (repeated k sites) = repeated (n * k) sites := by
  induction n with
  | zero =>
    rw [Nat.zero_mul]
    rfl
  | succ n ih =>
    rw [repeated_succ, ih, Nat.succ_mul, Nat.add_comm (n * k) k]
    unfold repeated
    rw [List.replicate_add, List.flatten_append]

end Site

/-! ## §2. Comparisons. -/

/-- Both computations return, with related results, or both fail with the same failure. -/
inductive Matches {ε β β' : Type} (P : β → β' → Prop) : Except ε β → Except ε β' → Prop where
  | ok {a : β} {a' : β'} (related : P a a') : Matches P (.ok a) (.ok a')
  | error (e : ε) : Matches P (.error e) (.error e)

namespace Matches

variable {ε β γ β' γ' : Type} {P : β → β' → Prop} {Q : γ → γ' → Prop}

theorem refl (x : Except ε β) : Matches (· = ·) x x := by
  cases x with
  | ok a => exact .ok rfl
  | error e => exact .error e

theorem bind {x : Except ε β} {x' : Except ε β'} {f : β → Except ε γ} {f' : β' → Except ε γ'}
    (hx : Matches P x x') (hf : ∀ a a', P a a' → Matches Q (f a) (f' a')) :
    Matches Q (x >>= f) (x' >>= f') := by
  cases hx with
  | ok h => exact hf _ _ h
  | error e => exact .error e

theorem mono {Q : β → β' → Prop} {x : Except ε β} {x' : Except ε β'} (h : Matches P x x')
    (hPQ : ∀ a a', P a a' → Q a a') : Matches Q x x' := by
  cases h with
  | ok h => exact .ok (hPQ _ _ h)
  | error e => exact .error e

/-- The related results are those of the two computations. -/
theorem results {x : Except ε β} {x' : Except ε β'} (h : Matches P x x') :
    Matches (fun a a' => P a a' ∧ x = .ok a ∧ x' = .ok a') x x' := by
  cases h with
  | ok h => exact .ok ⟨h, rfl, rfl⟩
  | error e => exact .error e

/-- Two computations that begin with the same one. -/
theorem bind_same {x : Except ε β} {f : β → Except ε γ} {f' : β → Except ε γ'}
    (hf : ∀ a, Matches Q (f a) (f' a)) : Matches Q (x >>= f) (x >>= f') :=
  (refl x).bind fun _ _ h => h ▸ hf _

end Matches

/-- A relation between the computations of two monads, for each list of sites that they pass
and for each relation between their results. -/
structure Comparison (m m' : Type → Type) (R : Type) [Monad m] [Monad m']
    [MonadLiftT (Except (Failure R)) m] [MonadLiftT (Except (Failure R)) m'] where
  rel {β β' : Type} : List (Site R) → (β → β' → Prop) → m β → m' β' → Prop
  pure {β β' : Type} {P : β → β' → Prop} {a : β} {a' : β'} :
    P a a' → rel [] P (Pure.pure a) (Pure.pure a')
  bind {β β' γ γ' : Type} {P : β → β' → Prop} {Q : γ → γ' → Prop} {g h : List (Site R)}
    {x : m β} {x' : m' β'} {f : β → m γ} {f' : β' → m' γ'} :
    rel g P x x' → (∀ a a', P a a' → rel h Q (f a) (f' a')) →
      rel (g ++ h) Q (x >>= f) (x' >>= f')
  lift {β β' : Type} {P : β → β' → Prop} {x : Except (Failure R) β} {x' : Except (Failure R) β'} :
    Matches P x x' → Routine x → rel [] P (liftM x) (liftM x')

variable {m m' : Type → Type} {R κ α : Type} [Monad m] [Monad m']
variable [MonadLiftT (Except (Failure R)) m] [MonadLiftT (Except (Failure R)) m']

namespace Comparison

variable (σ : Comparison m m' R) {β β' γ γ' δ : Type} {P : β → β' → Prop} {Q : γ → γ' → Prop}
variable {g h : List (Site R)}

/-- After a computation whose results are equal, both go on with the same value. -/
theorem bind_same {x : m δ} {x' : m' δ} {f : δ → m γ} {f' : δ → m' γ'}
    (hx : σ.rel g (· = ·) x x') (hf : ∀ a, σ.rel h Q (f a) (f' a)) :
    σ.rel (g ++ h) Q (x >>= f) (x' >>= f') :=
  σ.bind hx fun _ _ ha => ha ▸ hf _

/-- What comes before the first site. -/
theorem silent_bind {x : m β} {x' : m' β'} {f : β → m γ} {f' : β' → m' γ'} (hx : σ.rel [] P x x')
    (hf : ∀ a a', P a a' → σ.rel g Q (f a) (f' a')) : σ.rel g Q (x >>= f) (x' >>= f') :=
  σ.bind hx hf

/-- What comes after the last site. -/
theorem bind_silent {x : m β} {x' : m' β'} {f : β → m γ} {f' : β' → m' γ'} (hx : σ.rel g P x x')
    (hf : ∀ a a', P a a' → σ.rel [] Q (f a) (f' a')) : σ.rel g Q (x >>= f) (x' >>= f') := by
  have hbind := σ.bind hx hf
  rwa [List.append_nil] at hbind

/-- What is done with a result at last. -/
theorem bind_pure {x : m β} {x' : m' β'} {f : β → γ} {f' : β' → γ'} (hx : σ.rel g P x x')
    (hf : ∀ a a', P a a' → Q (f a) (f' a')) :
    σ.rel g Q (x >>= fun a => Pure.pure (f a)) (x' >>= fun a => Pure.pure (f' a)) :=
  σ.bind_silent hx fun a a' ha => σ.pure (hf a a' ha)

/-- A routine computation before the first site. -/
theorem lift_bind {x : Except (Failure R) β} {x' : Except (Failure R) β'} {f : β → m γ}
    {f' : β' → m' γ'} (hx : Matches P x x') (hroutine : Routine x)
    (hf : ∀ a a', P a a' → σ.rel g Q (f a) (f' a')) :
    σ.rel g Q (liftM x >>= f) (liftM x' >>= f') :=
  σ.silent_bind (σ.lift hx hroutine) hf

/-- A routine computation that is the same on both sides. -/
theorem lift_bind_same {x : Except (Failure R) δ} {f : δ → m γ} {f' : δ → m' γ'}
    (hroutine : Routine x) (hf : ∀ a, x = .ok a → σ.rel g Q (f a) (f' a)) :
    σ.rel g Q (liftM x >>= f) (liftM x >>= f') := by
  refine σ.lift_bind (Matches.refl x).results hroutine ?_
  rintro a _ ⟨rfl, ha, -⟩
  exact hf a ha

/-- The same failure is related to itself, whatever it is. -/
def Tolerant : Prop := ∀ {β β' : Type} (P : β → β' → Prop) (e : Failure R),
  σ.rel [] P (liftM (.error e : Except (Failure R) β)) (liftM (.error e : Except (Failure R) β'))

variable {σ} in
theorem Tolerant.lift (hσ : σ.Tolerant) {x : Except (Failure R) β} {x' : Except (Failure R) β'}
    (hx : Matches P x x') : σ.rel [] P (liftM x) (liftM x') := by
  cases hx with
  | ok h => exact σ.lift (.ok h) (.ok _)
  | error e => exact hσ P e

/-- The sites that are passed do not matter. -/
def Ungraded : Prop := ∀ {β β' : Type} {P : β → β' → Prop} {g h : List (Site R)} {x : m β}
  {x' : m' β'}, σ.rel g P x x' → σ.rel h P x x'

/-- Progress that is reported on both sides. -/
theorem tell {κ' α' : Type} {env : Environment m R κ α} {env' : Environment m' R κ' α'}
    (hreport : ∀ event, σ.rel [] (· = ·) (env.report event) (env'.report event))
    (display : Bool) (event : Progress R) :
    σ.rel [] (· = ·) (env.tell display event) (env'.tell display event) := by
  cases display
  · exact σ.pure rfl
  · exact hreport event

end Comparison

variable (σ : Comparison m m' R) [Control R] [Kinds κ] [Entry α R κ]

/-! ## §3. Operators. -/

/-- The two operators are related at the sites of their applications. -/
structure Operator.Alike (fwd adj : List (Site R)) (K : Operator m R κ α) (K' : Operator m' R κ α) :
    Prop where
  forward : ∀ x, σ.rel fwd (· = ·) (K.forward x) (K'.forward x)
  adjoint : ∀ y, σ.rel adj (· = ·) (K.adjoint y) (K'.adjoint y)

variable {σ} {fwd adj fwd' adj' : List (Site R)}

namespace Operator.Alike

variable {A B : Operator m R κ α} {A' B' : Operator m' R κ α}

theorem flattened (h : Operator.Alike σ fwd adj A A') (shape : List ℤ) :
    Operator.Alike σ fwd adj (.flattened A shape) (.flattened A' shape) where
  forward x := by
    unfold Operator.forward
    exact σ.bind_pure (h.forward x) fun _ _ hu => congrArg Tensor.flatten hu
  adjoint y := by
    unfold Operator.adjoint
    exact σ.lift_bind_same (Tensor.reshape_routine y shape) fun v _ => h.adjoint v

theorem stacked (hA : Operator.Alike σ fwd adj A A') (hB : Operator.Alike σ fwd' adj' B B')
    (q : Quantity R) :
    Operator.Alike σ (fwd ++ fwd') (adj ++ adj') (.stacked A B q) (.stacked A' B' q) where
  forward x := by
    unfold Operator.forward
    apply σ.bind_same (hA.forward x)
    intro u
    apply σ.bind_silent (hB.forward x)
    intro v _ hv
    cases hv
    exact σ.lift (.refl _) (Tensor.append_routine _ _)
  adjoint y := by
    unfold Operator.adjoint
    apply σ.lift_bind_same (Tensor.cutBefore_routine y.size q)
    intro cut _
    apply σ.lift_bind_same (Tensor.leading_routine y cut)
    intro first _
    apply σ.bind_same (hA.adjoint first)
    intro u
    apply σ.lift_bind_same (Tensor.trailing_routine y cut)
    intro last _
    apply σ.bind_silent (hB.adjoint last)
    intro v _ hv
    cases hv
    exact σ.lift (.refl _) (Tensor.add_routine u v)

end Operator.Alike

/-! ## §4. Steps. -/

variable (σ) in
/-- The two problems have the same data, and their maps are related at their sites. -/
structure Problem.Alike (fwd adj : List (Site R)) (p : Problem m R κ α) (p' : Problem m' R κ α) :
    Prop where
  b : p'.b = p.b
  K : Operator.Alike σ fwd adj p.K p'.K
  primalStep : p'.primalStep = p.primalStep
  dualStep : p'.dualStep = p.dualStep
  epsilon : p'.epsilon = p.epsilon
  prox : ∀ x t, σ.rel [.prox t] (· = ·) (p.prox x t) (p'.prox x t)
  q : p'.q = p.q

/-- **One step passes the adjoint, the proximal map and the operator.** -/
theorem Problem.Alike.advance {p : Problem m R κ α} {p' : Problem m' R κ α}
    (h : Problem.Alike σ fwd adj p p') (s : Iterate κ α) :
    σ.rel (adj ++ .prox p.primalStep :: fwd) (· = ·) (p.advance s) (p'.advance s) := by
  have hargument : ∀ u, p'.primalArgument s.x u = p.primalArgument s.x u := by
    intro u
    unfold Problem.primalArgument
    rw [h.primalStep]
  have hupdate : ∀ image, p'.dualUpdate s.y image = p.dualUpdate s.y image := by
    intro image
    unfold Problem.dualUpdate
    rw [h.dualStep, h.epsilon, h.b, h.q]
  -- Between the calls both steps compute the same, from the same numbers.
  unfold Problem.advance
  simp only [hargument, hupdate, h.primalStep]
  apply σ.bind_same (h.K.adjoint s.y)
  intro u
  apply σ.lift_bind_same (Tensor.sub_routine _ _)
  intro v _
  apply σ.bind_same (g := [.prox p.primalStep]) (h.prox v p.primalStep)
  intro x
  apply σ.lift_bind_same (Tensor.sub_routine _ _)
  intro e _
  apply σ.bind_silent (h.K.forward e)
  intro image _ himage
  cases himage
  apply σ.lift_bind_same (p.dualUpdate_routine s.y image)
  intro y _
  apply σ.lift_bind_same (Tensor.add_routine s.xSum x)
  intro xSum _
  apply σ.lift_bind_same (Tensor.add_routine s.ySum y)
  intro ySum _
  exact σ.pure rfl

/-! ## §5. Observations. -/

section Observations

variable (Stored Measured : Prop)

/-- The two records agree in their iterates where these are compared, and so in their errors. -/
structure Record.Like (r r' : Record R κ α) : Prop where
  snapshot : Stored → r'.snapshot = r.snapshot
  error : Measured → r'.error = r.error

/-- The two results of a run of steps agree, records included where these are compared. -/
structure InnerResult.Like (r r' : InnerResult R κ α) : Prop where
  x : r'.x = r.x
  y : r'.y = r.y
  iterates : Stored → r'.iterates = r.iterates
  errors : Measured → r'.errors = r.errors

/-- The records of two restarts agree where these are compared. -/
structure RestartRecord.Like (r r' : RestartRecord R κ α) : Prop where
  iterates : Stored → r'.iterates = r.iterates
  errors : Measured → r'.errors = r.errors

/-- What two runs of restarts leave behind agrees, records included where these are compared. -/
structure Trail.Like (trail trail' : Trail R κ α) : Prop where
  als : trail'.als = trail.als
  epss : trail'.epss = trail.epss
  iterates : Stored → trail'.records.map RestartRecord.iterates
    = trail.records.map RestartRecord.iterates
  errors : Measured → trail'.records.map RestartRecord.errors
    = trail.records.map RestartRecord.errors

/-- An observation passes the measure and the callback, where the observer has them. -/
theorem Observer.observe_alike [LawfulMonad m] [LawfulMonad m'] (o : Observer m R κ α)
    (o' : Observer m' R κ α) (hal : o'.al = o.al) (hscale : o'.scale = o.scale)
    (htype : o'.outputType = o.outputType) (hoffset : o'.offset = o.offset)
    (hstore : o'.store = o.store)
    (herror : Option.Rel (fun f f' => ∀ x, σ.rel [.measure] (· = ·) (f x) (f' x)) o.error o'.error)
    (hcallback : Option.Rel (fun f f' => ∀ k x, σ.rel [.callback] (· = ·) (f k x) (f' k x))
      o.callback o'.callback) (k : ℕ) (s : Iterate κ α) :
    σ.rel (Site.shown o.error.isSome o.callback.isSome) (Record.Like Stored Measured)
      (o.observe k s) (o'.observe k s) := by
  have hsnapshot : o'.snapshot k s = o.snapshot k s := by
    unfold Observer.snapshot
    rw [htype, hal]
  have hshown : o'.shown s = o.shown s := by
    unfold Observer.shown
    rw [hscale, hal]
  rw [Observer.observe_bind, Observer.observe_bind, hsnapshot, hshown, hscale, hoffset, hstore]
  revert herror hcallback
  generalize o.error = f
  generalize o'.error = f'
  generalize o.callback = c
  generalize o'.callback = c'
  intro herror hcallback
  unfold Site.shown
  refine σ.bind_same ?_ ?_
  · cases herror with
    | none => exact σ.pure rfl
    | some hf =>
      simp only [Option.elim, Option.isSome, if_true, map_eq_pure_bind]
      exact σ.bind_pure (hf _) fun _ _ he => congrArg some he
  · intro e
    refine σ.bind_pure (P := (· = ·)) ?_ fun _ _ _ => ⟨fun _ => rfl, fun _ => rfl⟩
    cases hcallback with
    | none => exact σ.pure rfl
    | some hf => exact hf _ _

variable {Stored Measured}

omit [Control R] [Kinds κ] [Entry α R κ] in
theorem Record.Like.lists {l l' : List (Record R κ α)}
    (h : List.Forall₂ (Record.Like Stored Measured) l l') :
    (Stored → l'.filterMap Record.snapshot = l.filterMap Record.snapshot)
      ∧ (Measured → l'.filterMap Record.error = l.filterMap Record.error) := by
  induction h with
  | nil => exact ⟨fun _ => rfl, fun _ => rfl⟩
  | cons hr _ ih =>
    refine ⟨fun hS => ?_, fun hM => ?_⟩
    · rw [List.filterMap_cons, List.filterMap_cons, hr.snapshot hS, ih.1 hS]
    · rw [List.filterMap_cons, List.filterMap_cons, hr.error hM, ih.2 hM]

/-! ## §6. Runs of steps. -/

namespace Inner

variable {p : Problem m R κ α} {p' : Problem m' R κ α} {o : Observer m R κ α}
variable {o' : Observer m' R κ α} {seen : List (Site R)}

/-- Any number of steps, each followed by its observation. -/
theorem steps_alike (hp : Problem.Alike σ fwd adj p p')
    (ho : ∀ k s, σ.rel seen (Record.Like Stored Measured) (o.observe k s) (o'.observe k s))
    (n k : ℕ) (s : Iterate κ α) :
    σ.rel (Site.repeated n ((adj ++ .prox p.primalStep :: fwd) ++ seen))
      (fun out out' => out.1 = out'.1 ∧ List.Forall₂ (Record.Like Stored Measured) out.2 out'.2)
      (steps p o n k s) (steps p' o' n k s) := by
  -- On the steps that are left: the sites of the next one stand before those of the others.
  induction n generalizing k s with
  | zero => exact σ.pure ⟨rfl, .nil⟩
  | succ n ih =>
    unfold steps
    rw [Site.repeated_succ, List.append_assoc]
    apply σ.bind_same (hp.advance s)
    intro next
    apply σ.bind (ho (k + 1) next)
    intro record record' hrecord
    exact σ.bind_pure (ih (k + 1) next) fun out out' hout => ⟨hout.1, .cons hrecord hout.2⟩

theorem run_alike (hp : Problem.Alike σ fwd adj p p') (htype : o'.outputType = o.outputType)
    (ho : ∀ k s, σ.rel seen (Record.Like Stored Measured) (o.observe k s) (o'.observe k s))
    (kIter : ℤ) (x y : Tensor κ α) :
    σ.rel (Site.repeated kIter.toNat ((adj ++ .prox p.primalStep :: fwd) ++ seen))
      (InnerResult.Like Stored Measured) (run p o kIter x y) (run p' o' kIter x y) := by
  unfold run
  rw [htype]
  refine σ.bind_pure (steps_alike hp ho kIter.toNat 0 (.start x y)) ?_
  rintro ⟨final, records⟩ ⟨final', records'⟩ ⟨hfinal, hrecords⟩
  cases hfinal
  exact ⟨rfl, rfl, (Record.Like.lists hrecords).1, (Record.Like.lists hrecords).2⟩

end Inner

end Observations

/-! ## §7. Restarts. -/

/-- The two choices agree in all numbers that steer a run. -/
structure Options.SameNumbers (o : Options m R κ α) (o' : Options m' R κ α) : Prop where
  C1 : o'.C1 = o.C1
  C2 : o'.C2 = o.C2
  outputType : o'.outputType = o.outputType
  upsilon : o'.upsilon = o.upsilon
  bound : o'.bound = o.bound
  tau : o'.tau = o.tau
  q : o'.q = o.q
  analysis : o'.analysis.isSome = o.analysis.isSome

namespace Options.SameNumbers

omit [Monad m] [Monad m'] [MonadLiftT (Except (Failure R)) m] [MonadLiftT (Except (Failure R)) m']
omit [Kinds κ] [Entry α R κ]

variable {o : Options m R κ α} {o' : Options m' R κ α} (h : o.SameNumbers o')
include h

omit [Control R] in
theorem boundOf : Rescaling.boundOf o' = Rescaling.boundOf o := by
  unfold Rescaling.boundOf
  rw [h.bound]

theorem stepSize : Schedule.stepSize o' = Schedule.stepSize o := by
  unfold Schedule.stepSize
  rw [h.tau, h.boundOf]

theorem factor (eps delta : R) (kIter : ℤ) (q : Quantity R) :
    Rescaling.factor eps delta kIter o' q = Rescaling.factor eps delta kIter o q := by
  unfold Rescaling.factor Rescaling.neededSteps
  rw [h.C1, h.C2, h.tau, h.upsilon, h.boundOf]

end Options.SameNumbers

variable (σ) in
/-- The two schedules have the same data, and their maps are related at their sites. -/
structure Schedule.Alike (fwd adj seen : List (Site R)) (Stored Measured : Prop)
    (s : Schedule m R κ α) (s' : Schedule m' R κ α) : Prop where
  b : s'.b = s.b
  K : Operator.Alike σ fwd adj s.K s'.K
  epsilon : s'.epsilon = s.epsilon
  delta : s'.delta = s.delta
  prox : ∀ x t, σ.rel [.prox t] (· = ·) (s.prox x t) (s'.prox x t)
  kIter : s'.kIter = s.kIter
  options : s.options.SameNumbers s'.options
  outputType : s'.outputType = s.outputType
  scale : s'.scale = s.scale
  observe : ∀ al type offset k it, σ.rel seen (Record.Like Stored Measured)
    ((s.observer al type offset).observe k it) ((s'.observer al type offset).observe k it)

namespace Schedule.Alike

variable {s : Schedule m R κ α} {s' : Schedule m' R κ α} {seen : List (Site R)}
variable {Stored Measured : Prop} (h : Schedule.Alike σ fwd adj seen Stored Measured s s')
include h

theorem rescale (eps : R) : Solver.rescale s' eps = Solver.rescale s eps := by
  unfold Solver.rescale
  rw [h.options.outputType, h.options.q, h.delta, h.kIter, h.options.factor]

theorem problem (al step : R) :
    Problem.Alike σ fwd adj (s.problem al step) (s'.problem al step) where
  b := congrArg (Tensor.scale al) h.b
  K := h.K
  primalStep := rfl
  dualStep := rfl
  epsilon := congrArg (al * ·) h.epsilon
  prox := h.prox
  q := by
    unfold Schedule.problem
    rw [h.options.q]

/-- **One restart passes the sites of its steps**, the step of the proximal map being that of
the schedule. -/
theorem restart {t : R} (ht : ∀ step, stepSize s.options = .ok step → step = t) (al : R)
    (offset : ℤ) (state : RestartState R κ α) :
    σ.rel (Site.repeated s.kIter.toNat ((adj ++ .prox t :: fwd) ++ seen))
      (fun out out' => out.1 = out'.1 ∧ RestartRecord.Like Stored Measured out.2 out'.2)
      (s.restart state al offset) (s'.restart state al offset) := by
  unfold Schedule.restart
  rw [h.options.stepSize, h.outputType, h.kIter, h.scale]
  apply σ.lift_bind_same (stepSize_routine _)
  intro step hstep
  obtain rfl := ht step hstep
  apply σ.lift_bind_same (OutputType.find_routine _)
  intro type _
  refine σ.bind_pure (Inner.run_alike (h.problem al _) rfl (h.observe al type offset) s.kIter _ _)
    fun r r' hr => ⟨?_, ?_, hr.errors⟩
  · unfold nextError
    rw [hr.x, hr.y, h.options.upsilon, h.delta]
  · exact fun hS => congrArg (List.map _) (hr.iterates hS)

variable [LawfulMonad m] [LawfulMonad m']

/-- **Any number of restarts.** -/
theorem restarts {env : Environment m R κ α} {env' : Environment m' R κ α}
    (htell : ∀ event, σ.rel [] (· = ·) (env.tell s.options.display event)
      (env'.tell s'.options.display event))
    {t : R} (ht : ∀ step, stepSize s.options = .ok step → step = t) (n j : ℕ)
    (state : RestartState R κ α) :
    σ.rel (Site.repeated n (Site.repeated s.kIter.toNat ((adj ++ .prox t :: fwd) ++ seen)))
      (fun out out' => out.1 = out'.1 ∧ Trail.Like Stored Measured out.2 out'.2)
      (Solver.restarts env s n j state) (Solver.restarts env' s' n j state) := by
  induction n generalizing j state with
  | zero => exact σ.pure ⟨rfl, rfl, rfl, fun _ => rfl, fun _ => rfl⟩
  | succ n ih =>
    rw [Solver.restarts_succ, Solver.restarts_succ, h.rescale, h.scale, h.kIter, Site.repeated_succ]
    apply σ.lift_bind_same (Solver.rescale_routine _ _)
    intro al _
    apply σ.silent_bind (htell _)
    intro _ _ _
    refine σ.bind (h.restart ht al _ state) ?_
    rintro ⟨next, record⟩ ⟨_, record'⟩ ⟨rfl, hrecord⟩
    refine σ.bind_pure (ih (j + 1) next) fun later later' hlater => ⟨hlater.1, ?_⟩
    exact {
      als := congrArg (al :: ·) hlater.2.als
      epss := congrArg (_ :: ·) hlater.2.epss
      iterates := fun hS => congrArg₂ List.cons (hrecord.iterates hS) (hlater.2.iterates hS)
      errors := fun hM => congrArg₂ List.cons (hrecord.errors hM) (hlater.2.errors hM) }

end Schedule.Alike

end PrimalDual
