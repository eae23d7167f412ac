/-
  PrimalDual.Proofs.Calls.World
  ─────────────────────────────
  **MAPS OF THE CALLER IN A WORLD OF STATES.**

  The maps of a request may read and change a state of the caller's, and may
  raise a failure, which the state survives.  `World σ R` is the monad of
  such computations.

  A request can be *wrapped*: each of its maps is replaced by another one
  that knows its site and the computation that would have been run there.
  In this way calls are written down or counted, or made to fail, without
  touching the solver.  Wrapping keeps the data of a request, so a wrapped
  request is alike to the request itself as soon as its single calls are
  (`Request.wrap_alike`).
-/
import PrimalDual.Proofs.Calls.Requests

namespace PrimalDual

/-! ## §1. Worlds. -/

/-- A computation that may fail and changes a state, which survives a failure. -/
abbrev World (σ R : Type) : Type → Type := ExceptT (Failure R) (StateM σ)

namespace World

variable {σ τ R β γ : Type}

/-- The outcome of a computation and the state that it leaves behind. -/
def play (x : World σ R β) (s : σ) : Except (Failure R) β × σ := x s

/-- A pure computation leaves the world as it is. -/
theorem play_lift (x : Except (Failure R) β) (s : σ) : play (liftM x : World σ R β) s = (x, s) := by
  cases x <;> rfl

/-- What follows plays in the world that is left, unless there is a failure. -/
theorem play_bind (x : World σ R β) (f : β → World σ R γ) (s : σ) :
    (x >>= f).play s = match x.play s with
      | (.ok a, t) => (f a).play t
      | (.error e, t) => (.error e, t) := by
  show ExceptT.bindCont f (x.play s).1 (x.play s).2 = _
  rcases x.play s with ⟨_ | a, t⟩ <;> rfl

theorem play_bind_ok {x : World σ R β} {f : β → World σ R γ} {s t : σ} {a : β}
    (h : x.play s = (.ok a, t)) : (x >>= f).play s = (f a).play t := by
  rw [play_bind, h]

/-- What comes after a computation that returned. -/
theorem play_bind_fst {x : World σ R β} {f : β → World σ R γ} {s : σ} {a : β}
    (h : (x.play s).1 = .ok a) : (x >>= f).play s = (f a).play (x.play s).2 :=
  play_bind_ok (Prod.ext h rfl)

theorem play_bind_error {x : World σ R β} {f : β → World σ R γ} {s t : σ} {e : Failure R}
    (h : x.play s = (.error e, t)) : (x >>= f).play s = (.error e, t) := by
  rw [play_bind, h]

/-- What returned went through both parts. -/
theorem play_bind_eq_ok {x : World σ R β} {f : β → World σ R γ} {s u : σ} {b : γ}
    (h : (x >>= f).play s = (.ok b, u)) :
    ∃ a t, x.play s = (.ok a, t) ∧ (f a).play t = (.ok b, u) := by
  rcases hplay : x.play s with ⟨e | a, t⟩
  · rw [play_bind_error hplay] at h
    cases h
  · rw [play_bind_ok hplay] at h
    exact ⟨a, t, rfl, h⟩

/-- A computation in a world with a further state, which it leaves alone. -/
def quiet (x : World σ R β) : World (σ × τ) R β := fun s =>
  ((x.play s.1).1, (x.play s.1).2, s.2)

/-- A quiet computation leaves the second world as it is. -/
theorem play_quiet (x : World σ R β) (s : σ) (t : τ) :
    (quiet x).play (s, t) = ((x.play s).1, (x.play s).2, t) := rfl

end World

/-! ## §2. Wrapped requests. -/

section Wrapped

variable {m m₁ : Type → Type} {R κ α : Type}

/-- What is done at a site instead of a computation. -/
abbrev Wrapper (m m' : Type → Type) (R : Type) : Type 1 := Site R → {β : Type} → m β → m' β

/-- The environment with its actions carried over to another monad. -/
def Environment.wrap (q : {β : Type} → m β → m₁ β) (env : Environment m R κ α) :
    Environment m₁ R κ α where
  draw shape kind := q (env.draw shape kind)
  report event := q (env.report event)

variable [Control R] [Kinds κ] [Entry α R κ] [Monad m] [MonadLiftT (Except (Failure R)) m]

/-- The operator with its applications wrapped. -/
def Operator.wrap (w : Wrapper m m₁ R) (part : Part) (op : Operator m R κ α) : Operator m₁ R κ α :=
  .maps (fun x => w (.forward part) (op.forward x)) fun y => w (.adjoint part) (op.adjoint y)

/-- Two maps with their applications wrapped; what is no pair of maps becomes an empty list, which
is none either. -/
def Component.wrapPair (w : Wrapper m m₁ R) (part : Part) :
    List (Component m κ α) → List (Component m₁ κ α)
  | [.map f, .map g] =>
    [.map fun x => w (.forward part) (f x), .map fun y => w (.adjoint part) (g y)]
  | _ => []

/-- The representation with the applications of its operator wrapped; one that stands for
no operator is refused as before. -/
def Representation.wrap (w : Wrapper m m₁ R) (part : Part) :
    Representation m R κ α → Representation m₁ R κ α
  | .operator op => .operator (op.wrap w part)
  | .matrix M =>
    if M.axes = 2 then .operator ((Operator.matrix M).wrap w part) else .matrix M
  | .array M =>
    if M.axes = 2 then .operator ((Operator.matrix M).wrap w part) else .array M
  | .components parts => .components (Component.wrapPair w part parts)
  | .list parts => .list (Component.wrapPair w part parts)
  | .modal f => .operator ((Operator.modal f).wrap w part)
  | .other sort => .other sort

/-- A matrix that is wrapped is the operator of the matrix, wrapped, or it is refused as before. -/
theorem Representation.ofMatrix_wrap (w : Wrapper m m₁ R) (part : Part) (M : Tensor κ α)
    {refused : Representation m₁ R κ α} (hrefused : refused.toOperator = Operator.ofMatrix M) :
    (if M.axes = 2 then operator ((Operator.matrix M).wrap w part) else refused).toOperator
      = (fun op => op.wrap w part) <$> (Operator.ofMatrix M : Except (Failure R) _) := by
  unfold Operator.ofMatrix at hrefused ⊢
  by_cases haxes : M.axes = 2
  · rw [if_pos haxes, if_pos haxes]
    rfl
  · rw [if_neg haxes, if_neg haxes, hrefused, if_neg haxes]
    rfl

/-- Two maps that are wrapped are the operator of the two maps, wrapped. -/
theorem Representation.ofParts_wrap (w : Wrapper m m₁ R) (part : Part)
    (parts : List (Component m κ α)) :
    (ofParts (Component.wrapPair w part parts) : Except (Failure R) (Operator m₁ R κ α))
      = (fun op => op.wrap w part) <$> ofParts parts := by
  -- Only exactly two maps are a pair.
  match parts with
  | [] => rfl
  | [.map _] | [.other] => rfl
  | [.map _, .map _] | [.map _, .other] | [.other, .map _] | [.other, .other] => rfl
  | .map _ :: .map _ :: _ :: _ | .map _ :: .other :: _ :: _ | .other :: _ :: _ :: _ => rfl

/-- A representation may be wrapped before it is read or after. -/
theorem Representation.toOperator_wrap (w : Wrapper m m₁ R) (part : Part)
    (rep : Representation m R κ α) :
    (rep.wrap w part).toOperator = (fun op => op.wrap w part) <$> rep.toOperator := by
  cases rep with
  | operator op => rfl
  | matrix M | array M => exact ofMatrix_wrap w part M rfl
  | components parts | list parts => exact ofParts_wrap w part parts
  | modal f => rfl
  | other sort => rfl

/-- The request with all of its maps wrapped. -/
def Request.wrap (w : Wrapper m m₁ R) (r : Request m R κ α) : Request m₁ R κ α where
  A := r.A.wrap w .measurement
  b := r.b
  epsilon := r.epsilon
  delta := r.delta
  prox x t := w (.prox t) (r.prox x t)
  x0 := r.x0
  y0 := r.y0
  nIter := r.nIter
  kIter := r.kIter
  options := {
    C1 := r.options.C1
    C2 := r.options.C2
    store := r.options.store
    outputType := r.options.outputType
    upsilon := r.options.upsilon
    bound := r.options.bound
    tau := r.options.tau
    display := r.options.display
    error := r.options.error.map fun f x => w .measure (f x)
    analysis := r.options.analysis.map fun rep => rep.wrap w .analysis
    q := r.options.q }
  callback := r.callback.map fun f k x => w .callback (f k x)

variable [Monad m₁] [MonadLiftT (Except (Failure R)) m₁]

/-! ## §3. Wrapped requests are alike. -/

/-- What is read from a representation with its applications wrapped, beside the
representation itself. -/
theorem Representation.wrap_matches {σ : Comparison m₁ m R} {w : Wrapper m m₁ R}
    (hw : ∀ site {β : Type} (x : m β), σ.rel [site] (· = ·) (w site x) x)
    (part : Part) (rep : Representation m R κ α) :
    Matches (Operator.Alike σ [.forward part] [.adjoint part]) (rep.wrap w part).toOperator
      rep.toOperator := by
  rw [toOperator_wrap]
  cases rep.toOperator with
  | ok op => exact .ok ⟨fun x => hw _ _, fun y => hw _ _⟩
  | error e => exact .error e

/-- An optional value read in two ways. -/
theorem rel_option_maps {β γ γ' : Type} {P : γ → γ' → Prop} {f : β → γ} {g : β → γ'} (a : Option β)
    (h : ∀ b, P (f b) (g b)) : Option.Rel P (a.map f) (a.map g) := by
  cases a with
  | none => exact .none
  | some b => exact .some (h b)

theorem rel_option_mapped {β γ : Type} {P : γ → β → Prop} {f : β → γ} (a : Option β)
    (h : ∀ b, P (f b) b) : Option.Rel P (a.map f) a := by
  have hmaps := rel_option_maps (g := id) a h
  rwa [Option.map_id, id_eq] at hmaps

namespace Request

/-- The sites of an observation by the observers of the request. -/
def seen (r : Request m R κ α) : List (Site R) :=
  Site.shown r.options.error.isSome r.callback.isSome

section Plans

omit [Monad m₁] [MonadLiftT (Except (Failure R)) m₁]

theorem analysis_wrap (w : Wrapper m m₁ R) (r : Request m R κ α) :
    (r.wrap w).options.analysis.isSome = r.options.analysis.isSome := Option.isSome_map ..

theorem sameNumbers_wrap (w : Wrapper m m₁ R) (r : Request m R κ α) :
    (r.wrap w).options.SameNumbers r.options :=
  ⟨rfl, rfl, rfl, rfl, rfl, rfl, rfl, (r.analysis_wrap w).symm⟩

theorem seen_wrap (w : Wrapper m m₁ R) (r : Request m R κ α) : (r.wrap w).seen = r.seen := by
  have herror : (r.wrap w).options.error.isSome = r.options.error.isSome := Option.isSome_map ..
  have hcallback : (r.wrap w).callback.isSome = r.callback.isSome := Option.isSome_map ..
  unfold seen
  rw [herror, hcallback]

/-- The calls of the preparation are the same when they are wrapped. -/
theorem setup_wrap (w : Wrapper m m₁ R) (r : Request m R κ α) : (r.wrap w).setup = r.setup := by
  unfold setup
  rw [r.analysis_wrap w]
  rfl

/-- The calls of a step are the same when they are wrapped. -/
theorem block_wrap (w : Wrapper m m₁ R) (r : Request m R κ α) (sites : List (Site R)) (t : R) :
    (r.wrap w).block sites t = r.block sites t := by
  unfold block
  rw [r.analysis_wrap w]

end Plans

variable [LawfulMonad m] [LawfulMonad m₁]

/-- **A wrapped request is alike to the request itself** if its calls are. -/
theorem wrap_alike (σ : Comparison m₁ m R) {w : Wrapper m m₁ R}
    (hw : ∀ site {β : Type} (x : m β), σ.rel [site] (· = ·) (w site x) x)
    (r : Request m R κ α) :
    (r.wrap w).Alike σ r.seen True True r where
  A := r.A.wrap_matches hw .measurement
  b := rfl
  epsilon := rfl
  delta := rfl
  prox x t := hw _ _
  x0 := rfl
  y0 := rfl
  nIter := rfl
  kIter := rfl
  options := r.sameNumbers_wrap w
  analysis := rel_option_mapped _ fun rep => rep.wrap_matches hw .analysis
  observe al scale type offset k it := by
    rw [← r.seen_wrap w]
    refine Observer.observe_alike _ _ ((r.wrap w).observer al scale type offset)
      (r.observer al scale type offset) rfl rfl rfl rfl rfl ?_ ?_ k it
    · exact rel_option_mapped _ fun f x => hw _ _
    · exact rel_option_mapped _ fun f k x => hw _ _

end Request

end Wrapped

end PrimalDual
