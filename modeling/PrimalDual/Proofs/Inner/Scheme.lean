/-
  PrimalDual.Proofs.Inner.Scheme
  ──────────────────────────────
  **THE INNER ITERATION ON VECTORS.**

  A `Scheme` is a primal-dual step between two Euclidean spaces, and a
  problem on tensors *follows* a scheme if its operator, its proximal map and
  its numbers are those of the scheme.  Then a run of the problem carries the
  tensors that hold the iterates of the scheme and their sums, and what can
  be observed of the run is a function of them:

      steps_state      a run of steps, with its records
      run_eq           the result of a run
      run_returns      a run fails only if an observer does
-/
import PrimalDual.Proofs.Prox.DualMap
import PrimalDual.Solver.Inner

namespace PrimalDual

open Tensor

variable {𝕜 : Type} [RCLike 𝕜] {D S : List ℕ}

/-! ## §1. Schemes. -/

/-- The data of a primal-dual step on vectors. -/
structure Scheme (𝕜 : Type) [RCLike 𝕜] (D S : List ℕ) where
  forward : Space 𝕜 D → Space 𝕜 S
  adjoint : Space 𝕜 S → Space 𝕜 D
  /-- The proximal map of the regulariser at the primal step. -/
  prox : Space 𝕜 D → Space 𝕜 D
  b : Space 𝕜 S
  primalStep : ℝ
  dualStep : ℝ
  epsilon : ℝ
  q : ℕ

namespace Scheme

variable (σ : Scheme 𝕜 D S) (z : Space 𝕜 D × Space 𝕜 S)

/-- The next primal vector. -/
noncomputable def primal : Space 𝕜 D :=
  σ.prox (z.1 - (σ.primalStep : 𝕜) • σ.adjoint z.2)

/-- What the dual map is applied to, given the next primal vector `x`. -/
noncomputable def dualArgument (x : Space 𝕜 D) : Space 𝕜 S :=
  z.2 + (σ.dualStep : 𝕜) • σ.forward (((2 : ℝ) : 𝕜) • x - z.1) - (σ.dualStep : 𝕜) • σ.b

/-- One primal-dual step. -/
noncomputable def step : Space 𝕜 D × Space 𝕜 S :=
  (σ.primal z, Prox.dualMap (σ.dualStep * σ.epsilon) σ.q (σ.dualArgument z (σ.primal z)))

/-- The pair after `n` steps. -/
noncomputable def after (n : ℕ) : Space 𝕜 D × Space 𝕜 S := σ.step^[n] z

/-- The sum of the pairs after 1, 2, …, `n` steps. -/
noncomputable def total (n : ℕ) : Space 𝕜 D × Space 𝕜 S :=
  ∑ i ∈ Finset.range n, σ.after z (i + 1)

theorem after_succ (n : ℕ) : σ.after z (n + 1) = σ.step (σ.after z n) :=
  Function.iterate_succ_apply' _ _ _

theorem total_succ (n : ℕ) : σ.total z (n + 1) = σ.total z n + σ.after z (n + 1) :=
  Finset.sum_range_succ _ _

/-- The iterate of a run after `n` steps. -/
noncomputable def state (n : ℕ) : Iterate Unit 𝕜 where
  x := ofVec D (σ.after z n).1
  y := ofVec S (σ.after z n).2
  xSum := ofVec D (σ.total z n).1
  ySum := ofVec S (σ.total z n).2

theorem state_zero (x : Space 𝕜 D) (y : Space 𝕜 S) :
    Iterate.start (ofVec D x) (ofVec S y) = σ.state (x, y) 0 := by
  unfold Iterate.start
  rw [zerosLike_ofVec, zerosLike_ofVec]
  rfl

end Scheme

/-! ## §2. Problems that follow a scheme. -/

namespace Problem

/-- The argument of the primal proximal map, for any image of the dual iterate. -/
theorem primalArgument_ofVec (p : Problem (Except (Failure ℝ)) ℝ Unit 𝕜) (x u : Space 𝕜 D) :
    p.primalArgument (ofVec D x) (ofVec D u) = .ok (ofVec D (x - (p.primalStep : 𝕜) • u)) := by
  unfold primalArgument
  rw [scale_ofVec, sub_ofVec]

/-- The dual update on tensors, for any image of the extrapolated primal iterate. -/
theorem dualUpdate_ofVec {p : Problem (Except (Failure ℝ)) ℝ Unit 𝕜} {b : Space 𝕜 S} {q : ℕ}
    (hb : p.b = ofVec S b)
    (hdual : ∀ (ρ : ℝ) (v : Space 𝕜 S),
      Prox.dual (ofVec S v) ρ p.q = .ok (ofVec S (Prox.dualMap ρ q v)))
    (y image : Space 𝕜 S) :
    p.dualUpdate (ofVec S y) (ofVec S image) = .ok (ofVec S
      (Prox.dualMap (p.dualStep * p.epsilon) q
        (y + (p.dualStep : 𝕜) • image - (p.dualStep : 𝕜) • b))) := by
  unfold dualUpdate
  rw [scale_ofVec, add_ofVec]
  show (((ofVec S (y + (p.dualStep : 𝕜) • image)).sub (scale p.dualStep p.b))
    >>= fun v => Prox.dual v (p.dualStep * p.epsilon) p.q) = _
  rw [hb, scale_ofVec, sub_ofVec]
  exact hdual _ _

/-- The extrapolated primal iterate. -/
theorem extrapolate_ofVec (x' x : Space 𝕜 D) :
    (extrapolate (ofVec D x') (ofVec D x) : Except (Failure ℝ) _)
      = .ok (ofVec D (((2 : ℝ) : 𝕜) • x' - x)) := by
  unfold extrapolate
  rw [Control.two_real, scale_ofVec, sub_ofVec]

end Problem

/-- A problem on tensors carries out the steps of a scheme. -/
structure Scheme.Followed (σ : Scheme 𝕜 D S) (p : Problem (Except (Failure ℝ)) ℝ Unit 𝕜) :
    Prop where
  b : p.b = ofVec S σ.b
  forward : ∀ x, p.K.forward (ofVec D x) = .ok (ofVec S (σ.forward x))
  adjoint : ∀ y, p.K.adjoint (ofVec S y) = .ok (ofVec D (σ.adjoint y))
  prox : ∀ v, p.prox (ofVec D v) σ.primalStep = .ok (ofVec D (σ.prox v))
  primalStep : p.primalStep = σ.primalStep
  dualStep : p.dualStep = σ.dualStep
  epsilon : p.epsilon = σ.epsilon
  dual : ∀ (ρ : ℝ) (v : Space 𝕜 S),
    Prox.dual (ofVec S v) ρ p.q = .ok (ofVec S (Prox.dualMap ρ σ.q v))

namespace Scheme.Followed

variable {σ : Scheme 𝕜 D S} {p : Problem (Except (Failure ℝ)) ℝ Unit 𝕜}

/-- **One step of the problem is one step of the scheme.** -/
theorem advance_state (h : σ.Followed p) (z : Space 𝕜 D × Space 𝕜 S) (n : ℕ) :
    p.advance (σ.state z n) = .ok (σ.state z (n + 1)) := by
  set w := σ.after z n with hw
  set x := σ.primal w with hx
  -- The values of the step in the order in which it computes them.
  have hargument : p.primalArgument (ofVec D w.1) (ofVec D (σ.adjoint w.2))
      = .ok (ofVec D (w.1 - (σ.primalStep : 𝕜) • σ.adjoint w.2)) := by
    rw [Problem.primalArgument_ofVec, h.primalStep]
  have hprox : p.prox (ofVec D (w.1 - (σ.primalStep : 𝕜) • σ.adjoint w.2)) p.primalStep
      = .ok (ofVec D x) := by
    rw [h.primalStep]
    exact h.prox _
  have hdual : p.dualUpdate (ofVec S w.2) (ofVec S (σ.forward (((2 : ℝ) : 𝕜) • x - w.1)))
      = .ok (ofVec S (σ.step w).2) := by
    rw [Problem.dualUpdate_ofVec h.b h.dual, h.dualStep, h.epsilon]
    rfl
  have hstate : σ.state z (n + 1) = ⟨ofVec D x, ofVec S (σ.step w).2,
      ofVec D ((σ.total z n).1 + x), ofVec S ((σ.total z n).2 + (σ.step w).2)⟩ := by
    unfold state
    rw [total_succ, after_succ]
    rfl
  rw [hstate]
  unfold Problem.advance
  simp only [state, ← hw, h.adjoint, h.forward, hargument, hprox, hdual,
    Problem.extrapolate_ofVec, add_ofVec, liftM, monadLift, bind, Except.bind]
  rfl

end Scheme.Followed

/-! ## §3. Runs. -/

namespace Scheme

variable (σ : Scheme 𝕜 D S) (o : Observer (Except (Failure ℝ)) ℝ Unit 𝕜)

/-- The records of `n` steps after `k`. -/
noncomputable def watch (z : Space 𝕜 D × Space 𝕜 S) :
    (n k : ℕ) → Except (Failure ℝ) (List (Record ℝ Unit 𝕜))
  | 0, _ => .ok []
  | n + 1, k => do
    let record ← o.observe (k + 1) (σ.state z (k + 1))
    let records ← watch z n (k + 1)
    return record :: records

variable {σ} {p : Problem (Except (Failure ℝ)) ℝ Unit 𝕜}

/-- **A run of steps goes through the states of the scheme.** -/
theorem Followed.steps_state (h : σ.Followed p) (z : Space 𝕜 D × Space 𝕜 S) (n k : ℕ) :
    Inner.steps p o n k (σ.state z k)
      = (fun records => (σ.state z (k + n), records)) <$> σ.watch o z n k := by
  -- By induction on the steps that are left; the records of the first one come first.
  induction n generalizing k with
  | zero => rfl
  | succ n ih =>
    unfold Inner.steps watch
    rw [h.advance_state, show k + (n + 1) = k + 1 + n by omega]
    show (o.observe (k + 1) (σ.state z (k + 1)) >>= fun record =>
      Inner.steps p o n (k + 1) (σ.state z (k + 1)) >>= _) = _
    rw [ih]
    cases o.observe (k + 1) (σ.state z (k + 1)) with
    | error e => rfl
    | ok record => cases σ.watch o z n (k + 1) <;> rfl

/-- The result of a run. -/
theorem Followed.run_eq (h : σ.Followed p) (x : Space 𝕜 D) (y : Space 𝕜 S) (kIter : ℤ) :
    Inner.run p o kIter (ofVec D x) (ofVec S y)
      = Inner.result o.outputType kIter (σ.state (x, y) kIter.toNat)
        <$> σ.watch o (x, y) kIter.toNat 0 := by
  unfold Inner.run
  rw [σ.state_zero, h.steps_state, Nat.zero_add]
  cases σ.watch o (x, y) kIter.toNat 0 <;> rfl

end Scheme

/-! ## §4. Results. -/

/-- Neither the error measure nor the callback of an observer ever fails. -/
def Observer.Faultless (o : Observer (Except (Failure ℝ)) ℝ Unit 𝕜) : Prop :=
  (∀ f ∈ o.error, ∀ x, ∃ r, f x = .ok r) ∧ ∀ f ∈ o.callback, ∀ k x, f k x = .ok ()

/-- The observer that neither records nor shows anything. -/
def Observer.silent (type : OutputType) : Observer (Except (Failure ℝ)) ℝ Unit 𝕜 where
  al := 1
  scale := 1
  outputType := type
  store := false
  error := none
  callback := none
  offset := 0

omit [RCLike 𝕜] in
theorem Observer.silent_faultless (type : OutputType) :
    (silent type : Observer (Except (Failure ℝ)) ℝ Unit 𝕜).Faultless :=
  ⟨fun _ h => (Option.not_mem_none _ h).elim, fun _ h => (Option.not_mem_none _ h).elim⟩

theorem Observer.Faultless.observe {o : Observer (Except (Failure ℝ)) ℝ Unit 𝕜}
    (ho : o.Faultless) (k : ℕ) (s : Iterate Unit 𝕜) : ∃ record, o.observe k s = .ok record := by
  obtain ⟨herror, hcallback⟩ := ho
  obtain ⟨al, scale, type, store, error, callback, offset⟩ := o
  -- Error measure and callback are both optional, so there are four observers to go through.
  have hmeasure : ∀ f ∈ error, ∀ x, ∃ e, some <$> f x = .ok e := by
    intro f hf x
    obtain ⟨r, hr⟩ := herror f hf x
    exact ⟨some r, by rw [hr]; rfl⟩
  cases callback with
  | none =>
    cases error with
    | none => exact ⟨_, rfl⟩
    | some f => exact exists_ok_bind (hmeasure f rfl _) fun _ => ⟨_, rfl⟩
  | some g =>
    cases error with
    | none =>
      exact exists_ok_bind ⟨none, rfl⟩ fun _ =>
        exists_ok_bind ⟨(), hcallback g rfl _ _⟩ fun _ => ⟨_, rfl⟩
    | some f =>
      exact exists_ok_bind (hmeasure f rfl _) fun _ =>
        exists_ok_bind ⟨(), hcallback g rfl _ _⟩ fun _ => ⟨_, rfl⟩

theorem Observer.Faultless.watch {σ : Scheme 𝕜 D S}
    {o : Observer (Except (Failure ℝ)) ℝ Unit 𝕜} (ho : o.Faultless)
    (z : Space 𝕜 D × Space 𝕜 S) (n k : ℕ) : ∃ records, σ.watch o z n k = .ok records := by
  induction n generalizing k with
  | zero => exact ⟨[], rfl⟩
  | succ n ih =>
    unfold Scheme.watch
    exact exists_ok_bind (ho.observe _ _) fun _ => exists_ok_bind (ih _) fun _ => ⟨_, rfl⟩

namespace Scheme

variable (σ : Scheme 𝕜 D S)

/-- What a run of `n` steps returns: last iterates or averages. -/
noncomputable def output (type : OutputType) (n : ℕ) (z : Space 𝕜 D × Space 𝕜 S) :
    Space 𝕜 D × Space 𝕜 S :=
  (if type.averagesPrimal then ((n : ℝ) : 𝕜)⁻¹ • (σ.total z n).1 else (σ.after z n).1,
    if type.averagesDual then ((n : ℝ) : 𝕜)⁻¹ • (σ.total z n).2 else (σ.after z n).2)

variable {σ} {p : Problem (Except (Failure ℝ)) ℝ Unit 𝕜}
variable {o : Observer (Except (Failure ℝ)) ℝ Unit 𝕜} {kIter : ℤ}

theorem result_eq_output (hk : 0 ≤ kIter) (type : OutputType) (z : Space 𝕜 D × Space 𝕜 S)
    (records : List (Record ℝ Unit 𝕜)) :
    (Inner.result type kIter (σ.state z kIter.toNat) records).x
        = ofVec D (σ.output type kIter.toNat z).1
      ∧ (Inner.result type kIter (σ.state z kIter.toNat) records).y
        = ofVec S (σ.output type kIter.toNat z).2 := by
  have hcast : (Control.ofInt kIter : ℝ) = (kIter.toNat : ℝ) :=
    (Control.ofInt_real kIter).trans (cast_eq_toNat hk)
  have hdiv : ∀ (s : List ℕ) (v : Space 𝕜 s), (ofVec s v).divBy (Control.ofInt kIter)
      = ofVec s (((kIter.toNat : ℝ) : 𝕜)⁻¹ • v) := by
    intro s v
    rw [hcast, divBy_ofVec]
  unfold Inner.result output
  constructor
  · show (if _ then (ofVec D _).divBy _ else _) = _
    cases type.averagesPrimal
    · rfl
    · exact hdiv _ _
  · show (if _ then (ofVec S _).divBy _ else _) = _
    cases type.averagesDual
    · rfl
    · exact hdiv _ _

/-- **What a run that returns delivers.** -/
theorem Followed.run_output (h : σ.Followed p) (hk : 0 ≤ kIter) {x : Space 𝕜 D}
    {y : Space 𝕜 S} {r : InnerResult ℝ Unit 𝕜}
    (hrun : Inner.run p o kIter (ofVec D x) (ofVec S y) = .ok r) :
    r.x = ofVec D (σ.output o.outputType kIter.toNat (x, y)).1
      ∧ r.y = ofVec S (σ.output o.outputType kIter.toNat (x, y)).2 := by
  rw [h.run_eq] at hrun
  cases hwatch : σ.watch o (x, y) kIter.toNat 0 with
  | error e =>
    rw [hwatch] at hrun
    cases hrun
  | ok records =>
    rw [hwatch] at hrun
    cases hrun
    exact result_eq_output hk _ _ _

/-- **A run whose observer does not fail returns.** -/
theorem Followed.run_returns (h : σ.Followed p) (ho : o.Faultless) (x : Space 𝕜 D)
    (y : Space 𝕜 S) (kIter : ℤ) : ∃ r, Inner.run p o kIter (ofVec D x) (ofVec S y) = .ok r := by
  obtain ⟨records, hrecords⟩ := ho.watch (x, y) kIter.toNat 0
  rw [h.run_eq, hrecords]
  exact ⟨_, rfl⟩

end Scheme

end PrimalDual
