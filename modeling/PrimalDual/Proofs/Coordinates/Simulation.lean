/-
  PrimalDual.Proofs.Coordinates.Simulation
  ────────────────────────────────────────
  **COMPUTATIONS SIDE BY SIDE.**

  Two computations *agree* if both of them fail or both return, with related
  results.  The solver is written for any monad in which a failure can be
  raised, so what is asked of two monads is stated once: a `Simulation`
  relates their computations and is kept by `pure`, by `bind` and by what is
  carried over from `Except`.  Two runs are then compared function by
  function, each along its own `do` block.

      Agrees, Agrees.simulation    computations that may fail
      Watched.simulation           computations that write down the calls of
                                   the observers, where the calls correspond
-/
import PrimalDual.Proofs.Run.Watch

namespace PrimalDual

/-! ## §1. Computations that may fail. -/

section Agrees

variable {ε β γ β' γ' : Type} {P : β → β' → Prop} {Q : γ → γ' → Prop}

/-- Both computations return, with related results, or both fail. -/
inductive Agrees (P : β → β' → Prop) : Except ε β → Except ε β' → Prop where
  | ok {a : β} {a' : β'} (related : P a a') : Agrees P (.ok a) (.ok a')
  | error (e e' : ε) : Agrees P (.error e) (.error e')

namespace Agrees

theorem bind {x : Except ε β} {x' : Except ε β'} {f : β → Except ε γ} {f' : β' → Except ε γ'}
    (hx : Agrees P x x') (hf : ∀ a a', P a a' → Agrees Q (f a) (f' a')) :
    Agrees Q (x >>= f) (x' >>= f') := by
  cases hx with
  | ok h => exact hf _ _ h
  | error e e' => exact .error e e'

/-- Every computation agrees with itself. -/
theorem refl (x : Except ε β) : Agrees (· = ·) x x := by
  cases x with
  | ok a => exact .ok rfl
  | error e => exact .error e e

/-- Of one and the same computation nothing need be known. -/
theorem same (x : Except ε β) : Agrees (fun _ _ => True) x x := by
  cases x with
  | ok a => exact .ok trivial
  | error e => exact .error e e

theorem mono {R : β → β' → Prop} {x : Except ε β} {x' : Except ε β'} (hx : Agrees P x x')
    (h : ∀ a a', x = .ok a → P a a' → R a a') : Agrees R x x' := by
  cases hx with
  | ok hP => exact .ok (h _ _ rfl hP)
  | error e e' => exact .error e e'

/-- A computation whose results are the images of those of another one. -/
theorem of_map {x : Except ε β} {f : β → β'} (h : ∀ a, x = .ok a → P a (f a)) :
    Agrees P x (f <$> x) := by
  cases x with
  | ok a => exact .ok (h a rfl)
  | error e => exact .error e e

/-- Two computations that return together. -/
theorem of_returns {x : Except ε β} {x' : Except ε β'}
    (h : (∃ a, x = .ok a) ↔ ∃ a', x' = .ok a')
    (hP : ∀ a a', x = .ok a → x' = .ok a' → P a a') : Agrees P x x' := by
  cases x with
  | ok a =>
    obtain ⟨a', rfl⟩ := h.1 ⟨a, rfl⟩
    exact .ok (hP a a' rfl rfl)
  | error e =>
    cases x' with
    | ok a' =>
      obtain ⟨a, ha⟩ := h.2 ⟨a', rfl⟩
      cases ha
    | error e' => exact .error e e'

/-- If the first computation returns, so does the second. -/
theorem returns {x : Except ε β} {x' : Except ε β'} (h : Agrees P x x') {a : β} (ha : x = .ok a) :
    ∃ a', x' = .ok a' ∧ P a a' := by
  subst ha
  cases h with
  | ok h => exact ⟨_, rfl, h⟩

end Agrees

end Agrees

/-! ## §2. Simulations between monads. -/

/-- A relation between the computations of two monads, for each relation between their
results. -/
structure Simulation (m m' : Type → Type) (R : Type) [Monad m] [Monad m']
    [MonadLiftT (Except (Failure R)) m] [MonadLiftT (Except (Failure R)) m'] where
  rel {β β' : Type} : (β → β' → Prop) → m β → m' β' → Prop
  pure {β β' : Type} {P : β → β' → Prop} {a : β} {a' : β'} :
    P a a' → rel P (Pure.pure a) (Pure.pure a')
  bind {β β' γ γ' : Type} {P : β → β' → Prop} {Q : γ → γ' → Prop} {x : m β} {x' : m' β'}
    {f : β → m γ} {f' : β' → m' γ'} :
    rel P x x' → (∀ a a', P a a' → rel Q (f a) (f' a')) → rel Q (x >>= f) (x' >>= f')
  lift {β β' : Type} {P : β → β' → Prop} {x : Except (Failure R) β} {x' : Except (Failure R) β'} :
    Agrees P x x' → rel P (liftM x) (liftM x')

namespace Simulation

variable {m m' : Type → Type} {R : Type} [Monad m] [Monad m']
variable [MonadLiftT (Except (Failure R)) m] [MonadLiftT (Except (Failure R)) m']
variable (σ : Simulation m m' R) {β β' γ γ' : Type}

/-- The two maps take related arguments to related computations. -/
def Maps (P : β → β' → Prop) (Q : γ → γ' → Prop) (f : β → m γ) (f' : β' → m' γ') : Prop :=
  ∀ a a', P a a' → σ.rel Q (f a) (f' a')

/-- A computation that both sides carry over from `Except`. -/
theorem lift_refl (x : Except (Failure R) β) : σ.rel (· = ·) (liftM x) (liftM x) :=
  σ.lift (.refl x)

theorem map [LawfulMonad m] [LawfulMonad m'] {P : β → β' → Prop} {Q : γ → γ' → Prop} {x : m β}
    {x' : m' β'} {f : β → γ} {f' : β' → γ'} (hx : σ.rel P x x')
    (hf : ∀ a a', P a a' → Q (f a) (f' a')) : σ.rel Q (f <$> x) (f' <$> x') := by
  rw [map_eq_pure_bind, map_eq_pure_bind]
  exact σ.bind hx fun a a' h => σ.pure (hf a a' h)

/-- Progress that is reported, or not, on both sides. -/
theorem tell {κ α κ' α' : Type} {env : Environment m R κ α} {env' : Environment m' R κ' α'}
    (h : ∀ event, σ.rel (fun _ _ => True) (env.report event) (env'.report event)) (display : Bool)
    (event : Progress R) :
    σ.rel (fun _ _ => True) (env.tell display event) (env'.tell display event) := by
  cases display
  · exact σ.pure trivial
  · exact h event

/-- A computation that depends on whether an optional value is present. -/
theorem elim {δ δ' : Type} {P : δ → δ' → Prop} {Q : β → β' → Prop} {g : Option δ}
    {g' : Option δ'} {z : m β} {z' : m' β'} {f : δ → m β} {f' : δ' → m' β'}
    (h : Option.Rel P g g') (hz : σ.rel Q z z') (hf : ∀ a a', P a a' → σ.rel Q (f a) (f' a')) :
    σ.rel Q (g.elim z f) (g'.elim z' f') := by
  cases h with
  | some h => exact hf _ _ h
  | none => exact hz

end Simulation

/-- The simulation between computations that have no effect but that they may fail. -/
def Agrees.simulation (R : Type) : Simulation (Except (Failure R)) (Except (Failure R)) R where
  rel := Agrees
  pure := .ok
  bind := .bind
  lift h := h

/-- Of two optional values that are related both are present or both are absent. -/
theorem isSome_of_rel {β β' : Type} {P : β → β' → Prop} {a : Option β} {a' : Option β'}
    (h : Option.Rel P a a') : a'.isSome = a.isSome := by
  cases h <;> rfl

theorem rel_option_map {β β' γ γ' : Type} {P : β → β' → Prop} {Q : γ → γ' → Prop} {a : Option β}
    {a' : Option β'} {f : β → γ} {f' : β' → γ'} (h : Option.Rel P a a')
    (hf : ∀ b b', P b b' → Q (f b) (f' b')) : Option.Rel Q (a.map f) (a'.map f') := by
  cases h with
  | some h => exact .some (hf _ _ h)
  | none => exact .none

theorem rel_option_mono {β β' : Type} {P Q : β → β' → Prop} {a : Option β} {a' : Option β'}
    (h : Option.Rel P a a') (hQ : ∀ b b', P b b' → Q b b') : Option.Rel Q a a' := by
  cases h with
  | some h => exact .some (hQ _ _ h)
  | none => exact .none

/-- An optional value and its image. -/
theorem rel_option_image {β β' : Type} {P : β → β' → Prop} {f : β → β'} {a : Option β}
    (h : ∀ b ∈ a, P b (f b)) : Option.Rel P a (a.map f) := by
  cases a with
  | none => exact .none
  | some b => exact .some (h b rfl)

theorem rel_option_self {β : Type} {P : β → β → Prop} {a : Option β} (h : ∀ b ∈ a, P b b) :
    Option.Rel P a a := by
  have himage := rel_option_image (f := id) h
  rwa [Option.map_id, id_eq] at himage

/-! ## §3. Computations that write down calls. -/

namespace Watched

variable {R κ α κ' α' β β' : Type} (C : Call κ α → Call κ' α' → Prop)

/-- From logs that correspond, both computations fail or both return, and then the logs still
correspond. -/
def Corresponds (P : β → β' → Prop) (x : Watched R κ α β) (x' : Watched R κ' α' β') : Prop :=
  ∀ log log', List.Forall₂ C log log' →
    Agrees (fun (out : β × List (Call κ α)) (out' : β' × List (Call κ' α')) =>
      P out.1 out'.1 ∧ List.Forall₂ C out.2 out'.2) (x.run log) (x'.run log')

/-- The simulation in which the calls of the observers correspond. -/
def simulation : Simulation (Watched R κ α) (Watched R κ' α') R where
  rel := Corresponds C
  pure h log log' hlog := .ok ⟨h, hlog⟩
  bind hx hf log log' hlog := by
    rw [StateT.run_bind, StateT.run_bind]
    exact (hx log log' hlog).bind fun out out' h => hf _ _ h.1 _ _ h.2
  lift h log log' hlog := by
    rw [run_lift, run_lift]
    exact h.bind fun _ _ hP => .ok ⟨hP, hlog⟩

variable {C} {P : β → β' → Prop}

theorem simulation_measure {E : R → R → Prop} {f : Tensor κ α → Except (Failure R) R}
    {f' : Tensor κ' α' → Except (Failure R) R} {x : Tensor κ α} {x' : Tensor κ' α'}
    (h : Agrees E (f x) (f' x')) (hC : C (.measured x) (.measured x')) :
    (simulation C).rel E (measure f x) (measure f' x') := by
  intro log log' hlog
  rw [run_measure, run_measure]
  exact h.bind fun _ _ he => .ok ⟨he, List.rel_append hlog (.cons hC .nil)⟩

theorem simulation_display {f : ℤ → Tensor κ α → Except (Failure R) Unit}
    {f' : ℤ → Tensor κ' α' → Except (Failure R) Unit} {k : ℤ} {x : Tensor κ α}
    {x' : Tensor κ' α'} (h : Agrees (fun _ _ => True) (f k x) (f' k x'))
    (hC : C (.shown k x) (.shown k x')) :
    (simulation C).rel (fun _ _ => True) (display f k x) (display f' k x') := by
  intro log log' hlog
  rw [run_display, run_display]
  exact h.bind fun _ _ _ => .ok ⟨trivial, List.rel_append hlog (.cons hC .nil)⟩

end Watched

end PrimalDual
