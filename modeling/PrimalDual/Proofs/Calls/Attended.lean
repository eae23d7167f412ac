/-
  PrimalDual.Proofs.Calls.Attended
  ────────────────────────────────
  **OBSERVERS WITH STATES OF THEIR OWN.**

  A request without effects can be *attended* by observers that do as they
  like with a state of their own: they keep books, count or print, and what
  they do may depend on what they have seen.  If they never raise, the run
  does not notice them (`Solver.attended_agree`):

      in two worlds    the runs with any two sets of observers both fail, or
                       return the same but for what only one of them records
      in one world     the callback is shown the iterates of the course of
                       the request (`Solver.attended_shown`)
-/
import PrimalDual.Proofs.Calls.World
import PrimalDual.Proofs.Coordinates.Simulation
import PrimalDual.Proofs.Run.Recorded
import PrimalDual.Proofs.Run.Solvable

namespace PrimalDual

variable {m m' : Type → Type} {σ σ' R κ α β β' : Type}

/-! ## §1. Attended requests. -/

/-- All that watches a run. -/
structure Observers (m : Type → Type) (R κ α : Type) where
  store : Bool
  display : Bool
  /-- Receives the progress of the run if it is displayed. -/
  report : Progress R → m Unit
  error : Option (Tensor κ α → m R)
  callback : Option (ℤ → Tensor κ α → m Unit)

section Requests

variable [MonadLiftT (Except (Failure R)) m]

/-- The request with other observers. -/
def Request.attended (r : Request (Except (Failure R)) R κ α) (o : Observers m R κ α) :
    Request m R κ α where
  A := r.A.lift
  b := r.b
  epsilon := r.epsilon
  delta := r.delta
  prox x t := liftM (r.prox x t)
  x0 := r.x0
  y0 := r.y0
  nIter := r.nIter
  kIter := r.kIter
  options := {
    C1 := r.options.C1
    C2 := r.options.C2
    store := o.store
    outputType := r.options.outputType
    upsilon := r.options.upsilon
    bound := r.options.bound
    tau := r.options.tau
    display := o.display
    error := o.error
    analysis := r.options.analysis.map Representation.lift
    q := r.options.q }
  callback := o.callback

/-- The environment that draws the given starts and reports to the observers. -/
def Observers.environment (o : Observers m R κ α)
    (draw : List ℕ → κ → Except (Failure R) (Tensor κ α)) : Environment m R κ α where
  draw shape kind := liftM (draw shape kind)
  report := o.report

/-- The run of a request that is attended by the observers. -/
def Solver.attended [Control R] [Kinds κ] [Entry α R κ] [Monad m]
    (draw : List ℕ → κ → Except (Failure R) (Tensor κ α))
    (r : Request (Except (Failure R)) R κ α) (o : Observers m R κ α) : m (Solution m R κ α) :=
  solve (o.environment draw) (r.attended o)

end Requests

/-- Observers that never raise. -/
structure Observers.Harmless (o : Observers (World σ R) R κ α) : Prop where
  report : ∀ event s, ((o.report event).play s).1 = .ok ()
  error : ∀ f, o.error = some f → ∀ x s, ∃ e, ((f x).play s).1 = .ok e
  callback : ∀ f, o.callback = some f → ∀ k x s, ((f k x).play s).1 = .ok ()

/-- The error measure is the function `g`, whatever the state; without one there is none. -/
def Observers.Measures (o : Observers (World σ R) R κ α) (g : Option (Tensor κ α → R)) : Prop :=
  match o.error, g with
  | none, none => True
  | some f, some g => ∀ x s, ((f x).play s).1 = .ok (g x)
  | _, _ => False

variable [Control R] [Kinds κ] [Entry α R κ]

/-! ## §2. Attended requests are alike. -/

section Alike

variable [Monad m] [Monad m'] [LawfulMonad m] [LawfulMonad m']
variable [MonadLiftT (Except (Failure R)) m] [MonadLiftT (Except (Failure R)) m']
variable [LawfulMonadLiftT (Except (Failure R)) m] [LawfulMonadLiftT (Except (Failure R)) m']
variable {σ : Comparison m m' R} (hσ : σ.Tolerant) (hgrade : σ.Ungraded)
include hσ hgrade

omit [LawfulMonad m] [LawfulMonad m'] in
theorem Representation.lift_matches (part : Part)
    (rep : Representation (Except (Failure R)) R κ α) :
    Matches (Operator.Alike σ [.forward part] [.adjoint part])
      (rep.lift : Representation m R κ α).toOperator
      (rep.lift : Representation m' R κ α).toOperator := by
  rw [toOperator_lift, toOperator_lift]
  cases rep.toOperator with
  | error e => exact .error e
  | ok op =>
    refine .ok ⟨fun x => ?_, fun y => ?_⟩
    · rw [Operator.forward_lift, Operator.forward_lift]
      exact hgrade (hσ.lift (.refl _))
    · rw [Operator.adjoint_lift, Operator.adjoint_lift]
      exact hgrade (hσ.lift (.refl _))

omit [LawfulMonad m] [LawfulMonad m'] in
/-- A request attended in two ways is alike to itself if its observations are. -/
theorem Request.attended_alike {Stored Measured : Prop}
    (r : Request (Except (Failure R)) R κ α) {o : Observers m R κ α} {o' : Observers m' R κ α}
    (hobserve : ∀ al scale type offset k it, σ.rel [] (Record.Like Stored Measured)
      (((r.attended o).observer al scale type offset).observe k it)
      (((r.attended o').observer al scale type offset).observe k it)) :
    (r.attended o).Alike σ [] Stored Measured (r.attended o') where
  A := r.A.lift_matches hσ hgrade .measurement
  b := rfl
  epsilon := rfl
  delta := rfl
  prox x t := hgrade (hσ.lift (.refl _))
  x0 := rfl
  y0 := rfl
  nIter := rfl
  kIter := rfl
  options := by
    refine ⟨rfl, rfl, rfl, rfl, rfl, rfl, rfl, ?_⟩
    show (r.options.analysis.map _).isSome = (r.options.analysis.map _).isSome
    rw [Option.isSome_map, Option.isSome_map]
  analysis := rel_option_maps _ fun rep => rep.lift_matches hσ hgrade .analysis
  observe := hobserve

end Alike

/-! ## §3. Runs in two worlds. -/

theorem Matches.agrees {ε : Type} {P : β → β' → Prop} {x : Except ε β} {x' : Except ε β'}
    (h : Matches P x x') : Agrees P x x' := by
  cases h with
  | ok h => exact .ok h
  | error e => exact .error e e

section Worlds

variable {τ : Type} (look : σ → τ) (look' : σ' → τ)

/-- Computations in two worlds that agree from all states that look the same, and leave behind
states that look the same. -/
def attending : Comparison (World σ R) (World σ' R) R where
  rel _ P x x' := ∀ s s', look s = look' s' →
    Agrees P (x.play s).1 (x'.play s').1 ∧ look (x.play s).2 = look' (x'.play s').2
  pure h _ _ hlook := ⟨.ok h, hlook⟩
  bind {β β' γ γ' P Q g h x x' f f'} hx hf s s' hlook := by
    obtain ⟨hagrees, hlook⟩ := hx s s' hlook
    rcases hplay : x.play s with ⟨out, t⟩
    rcases hplay' : x'.play s' with ⟨out', t'⟩
    rw [hplay, hplay'] at hagrees hlook
    cases hagrees with
    | ok ha =>
      rw [World.play_bind_ok hplay, World.play_bind_ok hplay']
      exact hf _ _ ha t t' hlook
    | error e e' =>
      rw [World.play_bind_error hplay, World.play_bind_error hplay']
      exact ⟨.error e e', hlook⟩
  lift h _ s s' hlook := by
    rw [World.play_lift, World.play_lift]
    exact ⟨h.agrees, hlook⟩

omit [Control R] in
theorem attending_tolerant : (attending look look' : Comparison _ _ R).Tolerant := by
  intro β β' P e s s' hlook
  rw [World.play_lift, World.play_lift]
  exact ⟨.error e e, hlook⟩

omit [Control R] in
theorem attending_ungraded : (attending look look' : Comparison _ _ R).Ungraded := id

end Worlds

/-- States at which nothing is looked. -/
def World.ignore (_ : σ) : Unit := ()

namespace Observers.Harmless

variable {o : Observers (World σ R) R κ α} {o' : Observers (World σ' R) R κ α}
variable (h : o.Harmless) (h' : o'.Harmless)
include h

omit [Control R] [Kinds κ] [Entry α R κ] in
theorem tell (draw : List ℕ → κ → Except (Failure R) (Tensor κ α)) (event : Progress R) (s : σ) :
    (((o.environment draw).tell o.display event).play s).1 = .ok () := by
  unfold Environment.tell
  split
  · exact h.report event s
  · rfl

omit [Control R] [Kinds κ] [Entry α R κ] in
/-- A measurement returns the value of the measure. -/
theorem measure (x : Tensor κ α) (s : σ) :
    ∃ error, ((o.error.elim (pure none) fun f => some <$> f x : World σ R (Option R)).play s).1
        = .ok error
      ∧ ∀ g, o.Measures g → error = g.map fun g => g x := by
  cases hf : o.error with
  | none =>
    refine ⟨none, rfl, ?_⟩
    intro g hg
    unfold Measures at hg
    rw [hf] at hg
    cases g with
    | none => rfl
    | some g => cases hg
  | some f =>
    obtain ⟨e, he⟩ := h.error f hf x s
    refine ⟨some e, ?_, ?_⟩
    · rw [Option.elim, map_eq_pure_bind, World.play_bind_fst he]
      rfl
    · intro g hg
      unfold Measures at hg
      rw [hf] at hg
      cases g with
      | none => cases hg
      | some g => exact congrArg some (Except.ok.inj (he.symm.trans (hg x s)))

omit [Control R] [Kinds κ] [Entry α R κ] in
/-- A call of the callback returns. -/
theorem present (k : ℤ) (x : Tensor κ α) (s : σ) :
    ((o.callback.elim (pure ()) fun f => f k x : World σ R Unit).play s).1 = .ok () := by
  cases hf : o.callback with
  | none => rfl
  | some f => exact h.callback f hf k x s

/-- An observation returns, with what the observers record. -/
theorem observe (r : Request (Except (Failure R)) R κ α) (al scale : R) (type : OutputType)
    (offset : ℤ) (k : ℕ) (it : Iterate κ α) (s : σ) :
    ∃ record, ((((r.attended o).observer al scale type offset).observe k it).play s).1 = .ok record
      ∧ (o.store = true → record.snapshot
        = some (((r.attended o).observer al scale type offset).snapshot k it))
      ∧ ∀ g, o.Measures g → record.error = g.map fun g =>
          g (Tensor.scale scale (((r.attended o).observer al scale type offset).snapshot k it)) := by
  rw [Observer.observe_bind]
  generalize ((r.attended o).observer al scale type offset).snapshot k it = x
  obtain ⟨error, herror, hvalue⟩ := h.measure (Tensor.scale scale x) s
  refine ⟨⟨if o.store then some x else none, error⟩, ?_, fun hstore => if_pos hstore, hvalue⟩
  refine (congrArg Prod.fst (World.play_bind_fst herror)).trans ?_
  exact congrArg Prod.fst (World.play_bind_fst (h.present _ _ _))

include h'

/-- The observations of harmless observers agree in what both record. -/
theorem observe_agree (r : Request (Except (Failure R)) R κ α) (al scale : R) (type : OutputType)
    (offset : ℤ) (k : ℕ) (it : Iterate κ α) :
    (attending World.ignore World.ignore).rel [] (Record.Like (o.store = true ∧ o'.store = true)
        (∃ g, o.Measures g ∧ o'.Measures g))
      (((r.attended o).observer al scale type offset).observe k it)
      (((r.attended o').observer al scale type offset).observe k it) := by
  intro s s' _
  obtain ⟨record, hrecord, hsnapshot, herror⟩ := h.observe r al scale type offset k it s
  obtain ⟨record', hrecord', hsnapshot', herror'⟩ := h'.observe r al scale type offset k it s'
  rw [hrecord, hrecord']
  refine ⟨.ok ⟨?_, ?_⟩, rfl⟩
  · intro hstore
    rw [hsnapshot hstore.1, hsnapshot' hstore.2]
    rfl
  · rintro ⟨g, hg, hg'⟩
    rw [herror g hg, herror' g hg']
    rfl

end Observers.Harmless

namespace Solver

variable {o : Observers (World σ R) R κ α} {o' : Observers (World σ' R) R κ α}
variable {env : Environment (World σ R) R κ α} {ready : Prepared (World σ R) R κ α}

omit [Kinds κ] [Entry α R κ] in
/-- Restarts with a step are announced. -/
theorem announce_returns {step : R} (hstep : Schedule.stepSize ready.schedule.options = .ok step)
    (hreport : ∀ event s, ((env.report event).play s).1 = .ok ()) (n : ℤ) (s : σ) :
    ((announce env n ready.schedule).play s).1 = .ok () := by
  obtain ⟨bound, hbound, -⟩ := bind_eq_ok.1 hstep
  unfold announce
  split
  · obtain ⟨event, hopening⟩ : ∃ event, opening n ready.schedule = .ok event := by
      apply Exists.intro
      apply bind_returns hbound
      apply bind_returns hstep
      rfl
    rw [hopening, World.play_bind_fst (by rw [World.play_lift])]
    exact hreport event _
  · rfl

/-- Without a step there is no restart. -/
theorem carryOut_stuck (env : Environment (World σ R) R κ α) {e : Failure R}
    (hstep : Schedule.stepSize ready.schedule.options = .error e)
    {n : ℤ} (hn : 1 ≤ n) (s : σ) : ∃ e', ((carryOut env n ready).play s).1 = .error e' := by
  rcases hplay : (carryOut env n ready).play s with ⟨e' | sol, t⟩
  · exact ⟨e', rfl⟩
  · obtain ⟨k, hk⟩ : ∃ k, n.toNat = k + 1 := ⟨n.toNat - 1, by omega⟩
    obtain ⟨_, _, -, hplay⟩ := World.play_bind_eq_ok hplay
    obtain ⟨out, _, hrestarts, -⟩ := World.play_bind_eq_ok hplay
    rw [hk, restarts_succ] at hrestarts
    obtain ⟨al, _, -, hrestarts⟩ := World.play_bind_eq_ok hrestarts
    obtain ⟨_, _, -, hrestarts⟩ := World.play_bind_eq_ok hrestarts
    obtain ⟨_, _, hrestart, -⟩ := World.play_bind_eq_ok hrestarts
    obtain ⟨step, _, hlift, -⟩ := World.play_bind_eq_ok hrestart
    rw [hstep, World.play_lift] at hlift
    cases hlift

/-- A request with a prepared problem asks for restarts and steps. -/
theorem prepare_play_counts {env : Environment (World σ R) R κ α}
    {r : Request (World σ R) R κ α} {s t : σ} (h : (prepare env r).play s = (.ok ready, t)) :
    1 ≤ r.nIter ∧ 1 ≤ r.kIter := by
  obtain ⟨_, _, hcheck, -⟩ := World.play_bind_eq_ok h
  rw [World.play_lift] at hcheck
  obtain ⟨hcounts, -⟩ := guard_ok (Prod.mk.inj hcheck).1
  rw [Bool.or_eq_false_iff, decide_eq_false_iff_not, decide_eq_false_iff_not] at hcounts
  omega

/-- **Observers that never raise do not influence a run.** -/
theorem attended_agree (h : o.Harmless) (h' : o'.Harmless)
    (draw : List ℕ → κ → Except (Failure R) (Tensor κ α))
    (r : Request (Except (Failure R)) R κ α) (s : σ) (s' : σ') :
    Agrees (Solution.Like (o.store = true ∧ o'.store = true) (∃ g, o.Measures g ∧ o'.Measures g))
      ((attended draw r o).play s).1 ((attended draw r o').play s').1 := by
  have hσ : (attending (World.ignore (σ := σ)) (World.ignore (σ := σ')) : Comparison _ _ R).Tolerant :=
    attending_tolerant _ _
  have hr := r.attended_alike hσ (attending_ungraded _ _) (h.observe_agree h' r)
  have htell : ∀ event, (attending World.ignore World.ignore).rel [] (· = ·)
      ((o.environment draw).tell o.display event)
      ((o'.environment draw).tell o'.display event) := by
    intro event s s' _
    rw [h.tell, h'.tell]
    exact ⟨.ok rfl, rfl⟩
  have henv : (o.environment draw).Alike (attending World.ignore World.ignore) o.display o'.display
      (o'.environment draw) := ⟨fun _ _ => hσ.lift (.refl _), htell⟩
  have hprepare := (hr.prepare hσ henv s s' rfl).1
  unfold attended
  rw [solve_carryOut, solve_carryOut]
  rcases hplay : (prepare (o.environment draw) (r.attended o)).play s with ⟨out, t⟩
  rcases hplay' : (prepare (o'.environment draw) (r.attended o')).play s' with ⟨out', t'⟩
  rw [hplay, hplay'] at hprepare
  cases hprepare with
  | error e e' =>
    rw [World.play_bind_error hplay, World.play_bind_error hplay']
    exact .error e e'
  | @ok ready ready' hready =>
    obtain ⟨L, hready⟩ := hready
    rw [World.play_bind_ok hplay, World.play_bind_ok hplay']
    have hsame : ready.schedule.options.SameNumbers ready'.schedule.options := by
      rw [hready.options, hready.options']
      exact { hr.options with bound := rfl }
    -- A display may notice first that there is no step; the restarts notice it all the same.
    cases hstep : Schedule.stepSize ready.schedule.options with
    | error e =>
      obtain ⟨e₁, he₁⟩ := carryOut_stuck (o.environment draw) hstep
        (prepare_play_counts hplay).1 t
      obtain ⟨e₂, he₂⟩ := carryOut_stuck (o'.environment draw)
        (hsame.stepSize.trans hstep) (prepare_play_counts hplay').1 t'
      rw [he₁, he₂]
      exact .error e₁ e₂
    | ok step =>
      refine (hready.carryOut hr (fun hstore => hstore.2.trans hstore.1.symm) htell ?_ t t' rfl).1
      intro s s' _
      rw [announce_returns hstep h.report, announce_returns (hsame.stepSize.trans hstep) h'.report]
      exact ⟨.ok rfl, rfl⟩

end Solver

/-! ## §4. What the callback is shown. -/

/-- The observers with the calls of their callback written down. -/
def Observers.noted (o : Observers (World σ R) R κ α) :
    Observers (World (σ × List (ℤ × Tensor κ α)) R) R κ α where
  store := o.store
  display := o.display
  report event := World.quiet (o.report event)
  error := o.error.map fun f x => World.quiet (f x)
  callback := o.callback.map fun f k x s =>
    (((f k x).play s.1).1, ((f k x).play s.1).2, s.2 ++ [(k, x)])

namespace Solver

/-- **Writing the calls down changes neither the outcome nor what the observers do.** -/
theorem attended_noted (o : Observers (World σ R) R κ α)
    (draw : List ℕ → κ → Except (Failure R) (Tensor κ α))
    (r : Request (Except (Failure R)) R κ α) (s : σ) (log : List (ℤ × Tensor κ α)) :
    Agrees (Solution.Like True True) ((attended draw r o.noted).play (s, log)).1
        ((attended draw r o).play s).1
      ∧ ((attended draw r o.noted).play (s, log)).2.1 = ((attended draw r o).play s).2 := by
  -- The two worlds are compared by what the observers see of theirs, the log left out.
  have hσ : (attending (Prod.fst : σ × List (ℤ × Tensor κ α) → σ) id : Comparison _ _ R).Tolerant :=
    attending_tolerant _ _
  have hquiet : ∀ {β : Type} (x : World σ R β),
      (attending (Prod.fst : σ × List (ℤ × Tensor κ α) → σ) id).rel [] (· = ·) (World.quiet x) x := by
    rintro β x ⟨s, log⟩ _ rfl
    rw [World.play_quiet]
    exact ⟨.refl _, rfl⟩
  have hr : (r.attended o.noted).Alike (attending Prod.fst id) [] True True (r.attended o) := by
    apply r.attended_alike hσ (attending_ungraded _ _)
    intro al scale type offset k it
    refine Observer.observe_alike (σ := attending Prod.fst id) _ _
      ((r.attended o.noted).observer al scale type offset)
      ((r.attended o).observer al scale type offset) rfl rfl rfl rfl rfl ?_ ?_ k it
    · exact rel_option_mapped _ fun f x => hquiet _
    · -- To write a call down and then make it is, seen from outside, to make it.
      refine rel_option_mapped _ fun f k x => ?_
      rintro ⟨s, log⟩ _ rfl
      exact ⟨.refl _, rfl⟩
  exact hr.solve (o.noted.environment draw) (o.environment draw) hσ rfl (fun _ => rfl)
    (fun _ _ => hσ.lift (.refl _)) (fun _ => hquiet _) (G := []) (fun _ _ _ hx => hx) (s, log) s rfl

end Solver

/-- The request with nothing observed but by a callback that does nothing. -/
def Request.bare (r : Request (Except (Failure R)) R κ α) (display : Bool) :
    Request (Except (Failure R)) R κ α :=
  { r with
    options := { r.options with store := false, display := display, error := none }
    callback := some fun _ _ => .ok () }

/-- Observers of watched runs that do nothing. -/
def Observers.idle (display : Bool) : Observers (Watched R κ α) R κ α where
  store := false
  display := display
  report _ := liftM (.ok () : Except (Failure R) Unit)
  error := none
  callback := some (Watched.display fun _ _ => .ok ())

/-- Two computations that fail, or return after the callback was shown the same. -/
inductive Shown (P : β → β' → Prop) : Except (Failure R) β × σ × List (ℤ × Tensor κ α) →
    Except (Failure R) (β' × List (Call κ α)) → Prop where
  | ok {a : β} {a' : β'} (t : σ) (calls : List (Call κ α)) (related : P a a') :
    Shown P (.ok a, t, calls.filterMap Call.shown?) (.ok (a', calls))
  | error (e e' : Failure R) (t : σ × List (ℤ × Tensor κ α)) : Shown P (.error e, t) (.error e')

/-- Runs with the calls of their callback written down, compared with watched runs. -/
def showing : Comparison (World (σ × List (ℤ × Tensor κ α)) R) (Watched R κ α) R where
  rel _ P x x' := ∀ s calls, Shown P (x.play (s, calls.filterMap Call.shown?)) (x'.run calls)
  pure h s calls := .ok s calls h
  bind {β β' γ γ' P Q g h x x' f f'} hx hf s calls := by
    have hshown := hx s calls
    rw [StateT.run_bind]
    rcases hplay : x.play (s, calls.filterMap Call.shown?) with ⟨out, t⟩
    rcases hrun : x'.run calls with e' | ⟨a', calls'⟩
    · rw [hplay, hrun] at hshown
      cases hshown
      rw [World.play_bind_error hplay]
      exact .error _ e' t
    · rw [hplay, hrun] at hshown
      cases hshown with
      | ok t calls ha =>
        rw [World.play_bind_ok hplay]
        exact hf _ _ ha t calls'
  lift {β β' P x x'} h _ s calls := by
    rw [World.play_lift, Watched.run_lift]
    cases h with
    | ok h => exact .ok s calls h
    | error e => exact .error e e _

omit [Control R] [Kinds κ] [Entry α R κ] in
theorem showing_tolerant :
    (showing : Comparison (World (σ × List (ℤ × Tensor κ α)) R) (Watched R κ α) R).Tolerant := by
  intro β β' P e s calls
  rw [World.play_lift, Watched.run_lift]
  exact .error e e _

omit [Control R] [Kinds κ] [Entry α R κ] in
theorem showing_ungraded :
    (showing : Comparison (World (σ × List (ℤ × Tensor κ α)) R) (Watched R κ α) R).Ungraded := id

omit [Control R] [Kinds κ] [Entry α R κ] in
/-- What returns and leaves the calls alone shows nothing. -/
theorem showing_quiet {x : World σ R β} (hx : ∀ s, ∃ a, (x.play s).1 = .ok a) (a' : β') :
    showing.rel [] (fun _ _ => True) (World.quiet x) (pure a' : Watched R κ α β') := by
  intro s calls
  obtain ⟨a, ha⟩ := hx s
  rw [World.play_quiet, ha]
  exact .ok _ calls trivial

namespace Observers.Harmless

variable {o : Observers (World σ R) R κ α} (h : o.Harmless)
include h

omit [Control R] [Kinds κ] [Entry α R κ] in
/-- A call that is written down is one of those that are watched. -/
theorem callback_showing (hcallback : o.callback.isSome) (k : ℤ) (x : Tensor κ α) :
    showing.rel [] (fun _ _ => True) (o.noted.callback.elim (pure ()) fun f => f k x)
      (Watched.display (R := R) (fun _ _ => .ok ()) k x) := by
  obtain ⟨f, hf⟩ := Option.isSome_iff_exists.1 hcallback
  unfold noted
  rw [hf]
  intro s calls
  rw [Watched.run_display]
  have hcall := h.callback f hf k x s
  have hlog : calls.filterMap Call.shown? ++ [(k, x)]
      = (calls ++ [Call.shown k x]).filterMap Call.shown? := by
    rw [List.filterMap_append]
    rfl
  show Shown (fun _ _ => True)
    (((f k x).play s).1, ((f k x).play s).2, calls.filterMap Call.shown? ++ [(k, x)]) _
  rw [hcall, hlog]
  exact .ok _ _ trivial

/-- An observation shows the same iterate as the one by observers that do nothing else. -/
theorem observe_showing (hcallback : o.callback.isSome) (r : Request (Except (Failure R)) R κ α)
    (al scale : R) (type : OutputType) (offset : ℤ) (k : ℕ) (it : Iterate κ α) :
    showing.rel [] (Record.Like False False)
      (((r.attended o.noted).observer al scale type offset).observe k it)
      (((r.attended (.idle o.display)).observer al scale type offset).observe k it) := by
  rw [Observer.observe_bind, Observer.observe_bind]
  refine showing.bind (P := fun _ _ => True) (g := []) ?_ fun _ _ _ =>
    showing.bind (P := fun _ _ => True) (g := []) (h.callback_showing hcallback _ _) fun _ _ _ =>
      showing.pure ⟨fun hS => hS.elim, fun hM => hM.elim⟩
  show showing.rel [] _ ((o.error.map _).elim _ _) (pure none)
  cases hf : o.error with
  | none => exact showing.pure trivial
  | some f =>
    rw [Option.map, Option.elim, map_eq_pure_bind]
    exact showing.bind (g := []) (showing_quiet (h.error f hf _) ()) fun _ _ _ => showing.pure trivial

end Observers.Harmless

/-- What is shown along a course: its last iterates, numbered from one. -/
theorem Schedule.shown_along {s : Schedule (Except (Failure R)) R κ α} {n : ℕ}
    {state : RestartState R κ α} {legs : List (Leg R κ α)} (hcallback : s.callback.isSome)
    (hk : 0 ≤ s.kIter) (hlegs : s.course n state = .ok legs) :
    ((s.calls 0 legs).filterMap Call.shown?).map Prod.fst
        = (List.range (n * s.kIter.toNat)).map (fun i => ((i + 1 : ℕ) : ℤ))
      ∧ ((s.calls 0 legs).filterMap Call.shown?).map Prod.snd = legs.flatMap s.displayed := by
  have hlength : (legs.flatMap s.displayed).length = n * s.kIter.toNat :=
    length_flatMap_course length_displayed hlegs
  rw [calls_numbered hcallback hk fun leg => length_of_mem hlegs]
  constructor
  · refine List.ext_getElem ?_ ?_
    · rw [List.length_map, List.length_mapIdx, List.length_map, List.length_range, hlength]
    · intro i hi hi'
      rw [List.getElem_map, List.getElem_mapIdx, List.getElem_map, List.getElem_range]
      simp
  · refine List.ext_getElem ?_ ?_
    · rw [List.length_map, List.length_mapIdx]
    · intro i hi hi'
      rw [List.getElem_map, List.getElem_mapIdx]

namespace Solver

/-- **The callback is shown the last primal iterates of the course**, in the caller's units and
numbered from one. -/
theorem attended_shown {o : Observers (World σ R) R κ α} (h : o.Harmless)
    (hcallback : o.callback.isSome) (draw : List ℕ → κ → Except (Failure R) (Tensor κ α))
    (r : Request (Except (Failure R)) R κ α) (s : σ) :
    Shown (Solution.Like False False) ((attended draw r o.noted).play (s, []))
      (watch ⟨draw, fun _ => .ok ()⟩ (r.bare o.display)) := by
  have hr := r.attended_alike showing_tolerant showing_ungraded (h.observe_showing hcallback r)
  have hreport : ∀ event, showing.rel [] (· = ·) (World.quiet (o.report event))
      (liftM (.ok () : Except (Failure R) Unit) : Watched R κ α Unit) := by
    intro event s calls
    rw [World.play_quiet, h.report]
    exact .ok _ calls rfl
  exact hr.solve (o.noted.environment draw) ((Observers.idle o.display).environment draw)
    showing_tolerant rfl (fun hS => hS.elim) (fun _ _ => showing_tolerant.lift (.refl _))
    hreport (G := []) (fun _ _ _ hx => hx) s []

/-- **Observers that never raise see a run and do not influence it.**  Two runs with different
observers both fail, or return the same but for what only one of them records.  A run that returns
has shown its callback every last primal iterate of the course of its request, in the caller's
units and with its number, and to write this down changes nothing. -/
theorem observers_do_not_interfere (draw : List ℕ → κ → Except (Failure R) (Tensor κ α))
    (r : Request (Except (Failure R)) R κ α) {o : Observers (World σ R) R κ α}
    {o' : Observers (World σ' R) R κ α} (h : o.Harmless) (h' : o'.Harmless) (s : σ) (s' : σ') :
    Agrees (Solution.Like (o.store = true ∧ o'.store = true) (∃ g, o.Measures g ∧ o'.Measures g))
        ((attended draw r o).play s).1 ((attended draw r o').play s').1
      ∧ (Agrees (Solution.Like True True) ((attended draw r o.noted).play (s, [])).1
            ((attended draw r o).play s).1
          ∧ ((attended draw r o.noted).play (s, [])).2.1 = ((attended draw r o).play s).2)
      ∧ ∀ sol t calls, o.callback.isSome →
          (attended draw r o.noted).play (s, []) = (.ok sol, t, calls) →
          calls.map Prod.fst
              = (List.range (r.nIter * r.kIter).toNat).map (fun i => ((i + 1 : ℕ) : ℤ))
            ∧ ∃ ready legs, prepare ⟨draw, fun _ => .ok ()⟩ (r.bare o.display) = .ok ready
              ∧ ready.schedule.course r.nIter.toNat ready.start = .ok legs
              ∧ sol.scale = ready.schedule.scale ∧ sol.alHistory = legs.map Leg.al
              ∧ calls.map Prod.snd = legs.flatMap fun leg => leg.path.map fun it =>
                  (Tensor.scale sol.scale it.x).divBy leg.al := by
  refine ⟨attended_agree h h' draw r s s', attended_noted o draw r s [], ?_⟩
  intro sol t calls hcallback hplay
  have hshown := attended_shown h hcallback draw r s
  rw [hplay] at hshown
  cases hwatch : watch ⟨draw, fun _ => .ok ()⟩ (r.bare o.display) with
  | error e =>
    rw [hwatch] at hshown
    cases hshown
  | ok out =>
    rw [hwatch] at hshown
    cases hshown with
    | ok t watched hlike =>
      obtain ⟨ready, legs, records, hready, hlegs, -, rfl, rfl⟩ := watch_ok _ hwatch
      -- What was written down is what the recorded run of the request shows.
      obtain ⟨hn, hk⟩ := prepare_counts hready
      obtain ⟨hkIter, -, hcalled, -⟩ := prepare_schedule hready
      replace hkIter : ready.schedule.kIter = r.kIter := hkIter
      replace hn : 1 ≤ r.nIter := hn
      replace hk : 1 ≤ r.kIter := hk
      obtain ⟨hnumbers, hshown⟩ := Schedule.shown_along (s := ready.schedule)
        (by rw [hcalled]; rfl) (by omega) hlegs
      have hcount : (r.nIter * r.kIter).toNat = r.nIter.toNat * ready.schedule.kIter.toNat := by
        rw [hkIter]
        exact Int.toNat_mul (by omega) (by omega)
      rw [hcount]
      refine ⟨hnumbers, ready, legs, hready, hlegs, hlike.scale.symm, hlike.alHistory.symm, ?_⟩
      rw [← hlike.scale]
      exact hshown

end Solver

/-! ## §5. A request that is attended. -/

/-- Observers that keep books of everything: the number of their calls. -/
noncomputable def Observers.counting : Observers (World ℕ ℝ) ℝ Unit ℝ where
  store := true
  display := true
  report _ n := (.ok (), n + 1)
  error := some fun x n => (x.normValue, n + 1)
  callback := some fun _ _ n => (.ok (), n + 1)

/-- Observers that have nothing to show. -/
noncomputable def Observers.hidden : Observers (World Unit ℝ) ℝ Unit ℝ where
  store := true
  display := false
  report _ := pure ()
  error := some fun x => liftM (x.normValue : Except (Failure ℝ) ℝ)
  callback := none

theorem Observers.counting_harmless : Observers.counting.Harmless where
  report event n := rfl
  error f hf x n := by
    cases hf
    exact ⟨_, Tensor.normValue_eq x⟩
  callback f hf k x n := by
    cases hf
    rfl

theorem Observers.hidden_harmless : Observers.hidden.Harmless where
  report event s := rfl
  error f hf x s := by
    cases hf
    rw [World.play_lift]
    exact ⟨_, Tensor.normValue_eq x⟩
  callback f hf k x s := by
    cases hf

/-- Both measure the length of an iterate. -/
theorem Observers.measures_length : ∃ g, Observers.counting.Measures g ∧ Observers.hidden.Measures g :=
  ⟨some _, fun x _ => Tensor.normValue_eq x, fun x _ => by
    rw [World.play_lift]
    exact Tensor.normValue_eq x⟩

/-- The request without its observers. -/
theorem unitRequest_bare_linear :
    (unitRequest.bare true).Linear (.id ℝ (Space ℝ [1])) (.id ℝ (Space ℝ [1])) :=
  { unitRequest_linear with
    valid := by
      have h := unitRequest_linear.valid
      exact ⟨h.C1_pos, h.C2_pos, h.upsilon_pos, h.upsilon_lt_one, h.tau_pos, h.bound_pos⟩
    error := by
      intro f hf
      cases hf
    callback := by
      intro f hf k x
      cases hf
      rfl }

namespace Solver

/-- The run with the calls written down returns. -/
theorem attended_unit : ∃ sol t calls, (attended quietEnvironment.draw unitRequest
    Observers.counting.noted).play (0, []) = (.ok sol, t, calls) := by
  obtain ⟨sol, hsol⟩ := unitRequest_bare_linear.solve_returns quietEnvironment_receptive
  obtain ⟨⟨watched, calls⟩, hwatch⟩ := watch_returns quietEnvironment_receptive hsol
  have hshown : Shown (Solution.Like False False) _ (watch quietEnvironment (unitRequest.bare true)) :=
    attended_shown Observers.counting_harmless rfl quietEnvironment.draw unitRequest 0
  rw [hwatch] at hshown
  generalize (attended quietEnvironment.draw unitRequest Observers.counting.noted).play (0, []) = out
    at hshown
  cases hshown with
  | ok t calls hlike => exact ⟨_, t, _, rfl⟩

/-- A run of two restarts of three steps, with and without a display and a callback. -/
theorem observers_do_not_interfere_unit :
    Observers.counting.Harmless ∧ Observers.hidden.Harmless ∧ ∃ sol sol' noted t calls,
      ((attended quietEnvironment.draw unitRequest Observers.counting).play 0).1 = .ok sol
        ∧ ((attended quietEnvironment.draw unitRequest Observers.hidden).play ()).1 = .ok sol'
        ∧ sol'.x = sol.x ∧ sol'.y = sol.y ∧ sol'.iterates = sol.iterates ∧ sol'.errors = sol.errors
        ∧ (attended quietEnvironment.draw unitRequest Observers.counting.noted).play (0, [])
          = (.ok noted, t, calls)
        ∧ noted.x = sol.x ∧ calls.map Prod.fst = [1, 2, 3, 4, 5, 6] := by
  obtain ⟨noted, t, calls, hnoted⟩ := attended_unit
  obtain ⟨hagrees, ⟨hwritten, -⟩, hcalls⟩ := observers_do_not_interfere quietEnvironment.draw
    unitRequest Observers.counting_harmless Observers.hidden_harmless 0 ()
  have hnumbers := (hcalls noted t calls rfl hnoted).1
  rw [hnoted] at hwritten
  obtain ⟨sol, hsol, hlike⟩ := hwritten.returns rfl
  obtain ⟨sol', hsol', hlike'⟩ := hagrees.returns hsol
  exact ⟨Observers.counting_harmless, Observers.hidden_harmless, sol, sol', noted, t, calls, hsol,
    hsol', hlike'.x, hlike'.y, hlike'.iterates ⟨rfl, rfl⟩, hlike'.errors Observers.measures_length,
    hnoted, hlike.x.symm, hnumbers⟩

end Solver

end PrimalDual
