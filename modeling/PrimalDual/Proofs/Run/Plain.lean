/-
  PrimalDual.Proofs.Run.Plain
  ───────────────────────────
  **PLAIN RUNS.**

  A plain run is told apart by the type in its options, while its restarts
  are carried out as averaged ones with rescaling factor 1.  The two agree
  wherever they meet: a plain run is a chain of averaged runs of steps, each
  begun where the one before it ended, and nothing is rescaled between them.

      Inner.chain         the chain
      Solver.chained      a request solved by a chain
      plain_is_chained    the solver does that, and the sharpness constants,
                          the shrink rate and the noise level reach neither
                          the solution nor the observers

  All of it is an equation between computations in any monad, so it covers
  what the maps of the caller do and in which order they are called.
-/
import PrimalDual.Proofs.Run.Solvable
import PrimalDual.Proofs.Run.Targets
import PrimalDual.Proofs.Run.Watch

namespace PrimalDual

open Tensor

/-! ## §1. Chains of runs. -/

section Chain

variable {m : Type → Type} {R κ α : Type} [Control R] [Kinds κ] [Entry α R κ]
variable [Monad m] [MonadLiftT (Except (Failure R)) m]

/-- The results of `n` runs of `kIter` steps that follow `j` others.  Each begins where the
one before it ended. -/
def Inner.chain (p : Problem m R κ α) (o : ℤ → Observer m R κ α) (kIter : ℤ) :
    (n j : ℕ) → (x y : Tensor κ α) → m (List (InnerResult R κ α))
  | 0, _, _, _ => pure []
  | n + 1, j, x, y => do
    let r ← run p (o (j * kIter)) kIter x y
    let later ← chain p o kIter n (j + 1) r.x r.y
    return r :: later

/-- The operator of a request with its analysis operator below. -/
def Solver.stackOperator (K : Operator m R κ α) (x0 : Tensor κ α) (q : ℕ) :
    Option (Representation m R κ α) → m (Operator m R κ α)
  | none => pure K
  | some analysis => do
    let B ← liftM (analysis.toOperator : Except (Failure R) (Operator m R κ α))
    let image ← B.forward x0
    liftM (K.stack B (.whole q) none (some (image.shape.map Int.ofNat))
      : Except (Failure R) (Operator m R κ α))

end Chain

variable {𝕜 : Type} [RCLike 𝕜]

/-- A vector continued by `q` zeros. -/
noncomputable def Tensor.padded (x : Tensor Unit 𝕜) (q : ℕ) : Tensor Unit 𝕜 :=
  tabulate () [x.size + q] fun i => if i < x.size then x.entry i else 0

/-- Zeros that are laid after a vector pad it. -/
theorem Tensor.append_zeros_eq {x : Tensor Unit 𝕜} {n : ℕ} (hx : x.shape = [n]) (q : ℕ) :
    (x.append (zeros () [q]) : Except (Failure ℝ) _) = .ok (x.padded q) := by
  have hsize : (zeros () [q] : Tensor Unit 𝕜).size = q :=
    (size_tabulate _ _ _).trans List.prod_singleton
  rw [append_vectors hx rfl, hsize]
  refine congrArg Except.ok (tabulate_congr _ _ ?_)
  intro i hi
  rw [List.prod_singleton] at hi
  by_cases h : i < x.size
  · rw [if_pos h, if_pos h]
  · rw [if_neg h, if_neg h]
    refine (entry_tabulate _ _ _ ?_).trans (Entry.zero_exact _)
    rw [List.prod_singleton]
    omega

theorem Tensor.divBy_one (x : Tensor Unit 𝕜) : x.divBy (1 : ℝ) = x := by
  rw [divBy_eq_scale, inv_one, scale_one]

variable {m : Type → Type}

/-- The measurements of a request as a vector, padded where there is an analysis operator. -/
noncomputable def Request.target (r : Request m ℝ Unit 𝕜) : Tensor Unit 𝕜 :=
  if r.options.analysis.isSome then r.b.flatten.padded r.options.q else r.b.flatten

variable [Monad m] [MonadLiftT (Except (Failure ℝ)) m]

/-- A request solved by a chain of averaged runs of steps of size `tau / L`, in the units in
which the measurements have norm 1. -/
noncomputable def Solver.chained (r : Request m ℝ Unit 𝕜) (L : ℝ) : m (Solution m ℝ Unit 𝕜) := do
  let A ← liftM (measurement r)
  let x0 ← primalStart A r.b.flatten r.x0
  let K ← stackOperator A x0 r.options.q r.options.analysis
  let scale := ‖vec r.b.shape r.b‖
  let problem : Problem m ℝ Unit 𝕜 := {
    b := r.target.divBy scale
    K := K
    primalStep := r.options.tau / L
    dualStep := r.options.tau / L
    epsilon := r.epsilon / scale
    prox := r.prox
    q := .whole r.options.q }
  let observer (offset : ℤ) : Observer m ℝ Unit 𝕜 := {
    al := 1
    scale := scale
    outputType := .averaged
    store := r.options.store
    error := r.options.error
    callback := r.callback
    offset := offset }
  let x := x0.divBy scale
  let y := (r.y0.getD r.target.zerosLike).flatten.divBy scale
  let runs ← Inner.chain problem observer r.kIter r.nIter.toNat 0 x y
  return {
    x := Tensor.scale scale ((runs.map InnerResult.x).getLastD x)
    y := Tensor.scale scale ((runs.map InnerResult.y).getLastD y)
    iterates := if r.options.store then
      runs.map fun out => out.iterates.map (Tensor.scale scale) else []
    errors := runs.flatMap InnerResult.errors
    nIter := r.nIter
    kIter := r.kIter
    options := r.options
    scale := scale
    alHistory := List.replicate r.nIter.toNat 1
    epsHistory := (List.range r.nIter.toNat).map
      (Target.errorAt r.options scale r.delta) }

/-! ## §2. The units of a plain request. -/

section Units

omit [Monad m] [MonadLiftT (Except (Failure ℝ)) m]

variable {r : Request m ℝ Unit 𝕜}

/-- Padding does not change the norm. -/
theorem Request.normValue_target (r : Request m ℝ Unit 𝕜) :
    (r.target.normValue : Except (Failure ℝ) ℝ) = .ok ‖vec r.b.shape r.b‖ := by
  have hb : (r.b.normValue : Except (Failure ℝ) ℝ) = .ok ‖vec r.b.shape r.b‖ := by
    rw [← normValue_ofVec, ofVec_vec rfl]
  have hflat := (normValue_flatten r.b).trans hb
  unfold target
  split
  · exact (append_zeros_ok (shape_flatten r.b)
      (append_zeros_eq (shape_flatten r.b) _)).2.trans hflat
  · exact hflat

namespace Solver

/-- The problem of a plain request, in the units of its measurements. -/
noncomputable def plainSchedule (r : Request m ℝ Unit 𝕜) (K : Operator m ℝ Unit 𝕜) :
    Schedule m ℝ Unit 𝕜 where
  b := r.target.divBy ‖vec r.b.shape r.b‖
  K := K
  epsilon := r.epsilon / ‖vec r.b.shape r.b‖
  delta := r.delta / ‖vec r.b.shape r.b‖
  prox := r.prox
  kIter := r.kIter
  options := r.options
  outputType := .whole OutputType.averaged.number
  scale := ‖vec r.b.shape r.b‖
  callback := r.callback

/-- The state from which a plain request is taken up. -/
noncomputable def plainStart (r : Request m ℝ Unit 𝕜) (x0 : Tensor Unit 𝕜) :
    RestartState ℝ Unit 𝕜 :=
  ⟨x0.divBy ‖vec r.b.shape r.b‖,
    (r.y0.getD r.target.zerosLike).flatten.divBy ‖vec r.b.shape r.b‖, r.options.C2⟩

theorem normalise_plain (hplain : r.options.outputType = .plain) (hb : ‖vec r.b.shape r.b‖ ≠ 0)
    (K : Operator m ℝ Unit 𝕜) (x0 : Tensor Unit 𝕜) :
    normalise r K r.target x0 (r.y0.getD r.target.zerosLike).flatten r.options
      = .ok ⟨plainSchedule r K, plainStart r x0⟩ := by
  have hzero : Control.eq ‖vec r.b.shape r.b‖ Control.zero = false := by
    simpa using hb
  have hunit : ((r.target.divBy ‖vec r.b.shape r.b‖).normValue : Except (Failure ℝ) ℝ)
      = .ok 1 := by
    rw [divBy_eq_scale, normValue_scale (inv_nonneg.2 (norm_nonneg _)), r.normValue_target]
    exact congrArg Except.ok (inv_mul_cancel₀ hb)
  unfold normalise
  rw [r.normValue_target]
  simp only [bind, Except.bind, hzero, Control.quotient_real _ hb, hunit, hplain, if_true, mul_one]
  rfl

end Solver

end Units

/-! ## §3. Restarts without rescaling. -/

variable [LawfulMonad m] [LawfulMonadLiftT (Except (Failure ℝ)) m]

omit [LawfulMonad m] in
/-- A computation that returned at once is carried over as its result. -/
theorem liftM_ok {β : Type} (a : β) :
    (liftM (Except.ok a : Except (Failure ℝ) β) : m β) = pure a := monadLift_pure a

namespace Schedule

variable {s : Schedule m ℝ Unit 𝕜} {step : ℝ}

/-- With factor 1 a restart is a run of steps. -/
theorem restart_one (hstep : stepSize s.options = .ok step)
    (htype : s.outputType = .whole OutputType.averaged.number) (state : RestartState ℝ Unit 𝕜)
    (offset : ℤ) :
    s.restart state 1 offset = (fun r : InnerResult ℝ Unit 𝕜 =>
        ((⟨r.x, r.y, s.nextError state.eps⟩ : RestartState ℝ Unit 𝕜),
          (⟨r.iterates.map (Tensor.scale s.scale), r.errors⟩ : RestartRecord ℝ Unit 𝕜)))
      <$> Inner.run (s.problem 1 step) (s.observer 1 .averaged offset) s.kIter state.psi
        state.y := by
  have hfind : (OutputType.find s.outputType : Except (Failure ℝ) OutputType) = .ok .averaged := by
    rw [htype, OutputType.find_number]
  unfold restart
  rw [hstep, hfind]
  simp only [liftM_ok, pure_bind, scale_one, divBy_one, map_eq_pure_bind]

end Schedule

namespace Solver

variable {env : Environment m ℝ Unit 𝕜} {s : Schedule m ℝ Unit 𝕜} {step : ℝ}

/-- **The restarts of a plain run are a chain.**  `e` is the sequence of target errors that
begins in the state; nothing but the histories depends on it. -/
theorem restarts_plain (henv : ∀ event, env.report event = pure ())
    (hplain : s.options.outputType = .plain) (hstep : Schedule.stepSize s.options = .ok step)
    (htype : s.outputType = .whole OutputType.averaged.number) (n j : ℕ)
    (state : RestartState ℝ Unit 𝕜) {e : ℕ → ℝ} (hstart : e 0 = state.eps)
    (hnext : ∀ i, e (i + 1) = s.nextError (e i)) :
    restarts env s n j state = (fun runs : List (InnerResult ℝ Unit 𝕜) =>
        ((⟨(runs.map InnerResult.x).getLastD state.psi, (runs.map InnerResult.y).getLastD state.y,
            e n⟩ : RestartState ℝ Unit 𝕜),
          (⟨runs.map fun r => ⟨r.iterates.map (Tensor.scale s.scale), r.errors⟩,
            List.replicate n 1, (List.range n).map fun i => e i * s.scale⟩ : Trail ℝ Unit 𝕜)))
      <$> Inner.chain (s.problem 1 step) (s.observer 1 .averaged) s.kIter n j state.psi
        state.y := by
  have htell : ∀ display event, env.tell display event = pure () := by
    intro display event
    unfold Environment.tell
    rw [henv, ite_self]
  have hrescale : ∀ eps, rescale s eps = .ok (1 : ℝ) := by
    intro eps
    unfold rescale
    rw [if_pos hplain, Control.one_real]
  -- By induction on the restarts that are left, with the sequence moved on by one.
  induction n generalizing j state e with
  | zero =>
    rw [restarts, Inner.chain, map_pure, hstart]
    rfl
  | succ n ih =>
    rw [restarts_succ, Inner.chain, hrescale, liftM_ok, pure_bind, htell, pure_bind,
      Schedule.restart_one hstep htype, bind_map_left, map_bind]
    apply bind_congr
    intro r
    rw [ih (j + 1) ⟨r.x, r.y, s.nextError state.eps⟩ (e := fun i => e (i + 1))
      (by rw [hnext 0, hstart]) fun i => hnext (i + 1), bind_map_left, map_bind]
    apply bind_congr
    intro later
    rw [map_pure, List.map_cons, List.map_cons, List.map_cons, List.getLastD_cons,
      List.getLastD_cons, List.replicate_succ, List.range_succ_eq_map, List.map_cons, List.map_map,
      hstart]
    rfl

/-! ## §4. Solutions. -/

variable {r : Request m ℝ Unit 𝕜}

/-- Stacking touches the measurements in one way only, whatever the operators do. -/
theorem stackAnalysis_map (K : Operator m ℝ Unit 𝕜) {b : Tensor Unit 𝕜} {n : ℕ}
    (hb : b.shape = [n]) (x0 : Tensor Unit 𝕜) (q : ℕ)
    (analysis : Option (Representation m ℝ Unit 𝕜)) :
    stackAnalysis K b x0 q analysis
      = (fun K' => (K', if analysis.isSome then b.padded q else b))
        <$> stackOperator K x0 q analysis := by
  cases analysis with
  | none =>
    rw [stackAnalysis, stackOperator, map_pure]
    rfl
  | some B =>
    unfold stackAnalysis stackOperator
    simp only [show b.append (Tensor.zeros b.kind [q]) = .ok (b.padded q) from
      append_zeros_eq hb q, Option.isSome_some, if_true, liftM, monadLift_bind,
      monadLift_pure, map_eq_pure_bind, bind_assoc]
    apply bind_congr
    intro op
    apply bind_congr
    intro image
    apply bind_congr
    intro K'
    exact (congrArg (· >>= _) (liftM_ok _)).trans (pure_bind _ _)

/-- **A plain request with a bound is made ready without an estimate.** -/
theorem prepare_plain (hn : 1 ≤ r.nIter) (hk : 1 ≤ r.kIter) (hepsilon : 0 ≤ r.epsilon)
    (hdelta : 0 ≤ r.delta) (hplain : r.options.outputType = .plain)
    (hb : ‖vec r.b.shape r.b‖ ≠ 0) {L : ℝ} (hL : r.options.bound = some L) :
    prepare env r = (do
      let A ← liftM (measurement r)
      let x0 ← primalStart A r.b.flatten r.x0
      let K ← stackOperator A x0 r.options.q r.options.analysis
      return ⟨plainSchedule r K, plainStart r x0⟩) := by
  have hbound : ∀ K x, ensureBound env K x r.options = pure r.options :=
    fun K x => ensureBound_some env K x hL
  have htarget : (if r.options.analysis.isSome then r.b.flatten.padded r.options.q
      else r.b.flatten) = r.target := rfl
  unfold prepare
  simp only [checkRequest_ok hn hk hepsilon hdelta, liftM_ok, pure_bind,
    stackAnalysis_map _ (shape_flatten r.b), htarget, bind_map_left, hbound,
    normalise_plain hplain hb]

/-- **A plain run is a chain.** -/
theorem solve_plain (henv : ∀ event, env.report event = pure ()) (hn : 1 ≤ r.nIter)
    (hk : 1 ≤ r.kIter) (hepsilon : 0 ≤ r.epsilon) (hdelta : 0 ≤ r.delta)
    (hplain : r.options.outputType = .plain) (hb : ‖vec r.b.shape r.b‖ ≠ 0) {L : ℝ}
    (hL : r.options.bound = some L) (hL₀ : L ≠ 0) : solve env r = chained r L := by
  have hstep : Schedule.stepSize r.options = .ok (r.options.tau / L) := by
    unfold Schedule.stepSize Rescaling.boundOf
    rw [hL]
    exact Control.quotient_real _ hL₀
  have hreport : ∀ display event, env.tell display event = pure () := by
    intro display event
    unfold Environment.tell
    rw [henv, ite_self]
  have hannounce : ∀ K, announce env r.nIter (plainSchedule r K) = pure () := by
    intro K
    have hopening : ∃ event, opening r.nIter (plainSchedule r K) = .ok event := by
      unfold opening Rescaling.boundOf
      rw [show (plainSchedule r K).options = r.options from rfl, hL, hstep]
      exact ⟨_, rfl⟩
    obtain ⟨event, hevent⟩ := hopening
    unfold announce
    rw [hevent, liftM_ok, pure_bind, henv, ite_self]
  have hproblem : ∀ K, (plainSchedule r K).problem 1 (r.options.tau / L) = {
      b := r.target.divBy ‖vec r.b.shape r.b‖
      K := K
      primalStep := r.options.tau / L
      dualStep := r.options.tau / L
      epsilon := r.epsilon / ‖vec r.b.shape r.b‖
      prox := r.prox
      q := .whole r.options.q } := by
    intro K
    unfold Schedule.problem
    rw [scale_one, one_mul]
    rfl
  rw [solve_eq, prepare_plain hn hk hepsilon hdelta hplain hb hL, chained]
  simp only [bind_assoc, pure_bind]
  apply bind_congr
  intro A
  apply bind_congr
  intro x0
  apply bind_congr
  intro K
  rw [hannounce, pure_bind, restarts_plain henv hplain hstep rfl r.nIter.toNat 0 (plainStart r x0)
    (e := fun j => Target.errorAt r.options ‖vec r.b.shape r.b‖ r.delta j / ‖vec r.b.shape r.b‖)
    (Target.errorAt_zero_div _ _ hb) (Target.errorAt_succ_div _ _ _), hproblem, bind_map_left]
  apply bind_congr
  intro runs
  rw [hreport, pure_bind]
  -- The target errors are kept in the units of the scale and reported in the caller's.
  have hhistory : ((List.range r.nIter.toNat).map fun j =>
      Target.errorAt r.options ‖vec r.b.shape r.b‖ r.delta j / ‖vec r.b.shape r.b‖
        * (plainSchedule r K).scale)
      = (List.range r.nIter.toNat).map (Target.errorAt r.options ‖vec r.b.shape r.b‖ r.delta) :=
    List.map_congr_left fun j _ => div_mul_cancel₀ _ hb
  rw [hhistory]
  unfold solution
  simp only [List.map_map, List.flatMap_map]
  rfl

end Solver

/-! ## §5. What a plain run does not depend on. -/

/-- The request with other sharpness constants, another shrink rate and another noise level. -/
def Request.sharpened {R κ α : Type} (r : Request m R κ α) (C1 C2 upsilon delta : R) :
    Request m R κ α :=
  { r with
    delta := delta
    options := { r.options with C1 := C1, C2 := C2, upsilon := upsilon } }

/-- The solution without its settings and histories. -/
def Solution.outcome {R κ α : Type} (sol : Solution m R κ α) :
    (Tensor κ α × Tensor κ α) × List (List (Tensor κ α)) × List R :=
  ((sol.x, sol.y), sol.iterates, sol.errors)

namespace Solver

omit [LawfulMonadLiftT (Except (Failure ℝ)) m] in
/-- A chain reads neither the sharpness constants nor the shrink rate nor the noise level. -/
theorem chained_sharpened (r : Request m ℝ Unit 𝕜) (L C1 C2 upsilon delta : ℝ) :
    Solution.outcome <$> chained (r.sharpened C1 C2 upsilon delta) L
      = Solution.outcome <$> chained r L := by
  unfold chained
  simp only [map_bind, map_pure]
  rfl

/-- **Plain runs.**  A plain request with bound `L` is solved by a chain of averaged runs of
steps, with the same calls of all maps of the caller in the same order.  Its outcome and these
calls do not change with the sharpness constants, the shrink rate and the noise level. -/
theorem plain_is_chained {env : Environment m ℝ Unit 𝕜} {r : Request m ℝ Unit 𝕜}
    (henv : ∀ event, env.report event = pure ()) (hplain : r.options.outputType = .plain)
    {L : ℝ} (hL : r.options.bound = some L) (hL₀ : 0 < L) (hn : 1 ≤ r.nIter) (hk : 1 ≤ r.kIter)
    (hepsilon : 0 ≤ r.epsilon) (hdelta : 0 ≤ r.delta) (hb : ‖vec r.b.shape r.b‖ ≠ 0) :
    solve env r = chained r L ∧ ∀ C1 C2 upsilon delta, 0 ≤ delta →
      Solution.outcome <$> solve env (r.sharpened C1 C2 upsilon delta)
        = Solution.outcome <$> solve env r := by
  have hchained := solve_plain henv hn hk hepsilon hdelta hplain hb hL hL₀.ne'
  refine ⟨hchained, ?_⟩
  intro C1 C2 upsilon delta hdelta'
  have hchained' := solve_plain (r := r.sharpened C1 C2 upsilon delta) henv hn hk hepsilon hdelta'
    hplain hb hL hL₀.ne'
  rw [hchained, hchained', chained_sharpened]

/-- The small request, as a plain one. -/
noncomputable def plainRequest : Request (Except (Failure ℝ)) ℝ Unit ℝ :=
  { unitRequest with options := { unitRequest.options with outputType := .plain } }

theorem norm_plainRequest : ‖vec plainRequest.b.shape plainRequest.b‖ = 2 := by
  show ‖vec [1] (ofVec [1] (single 2))‖ = 2
  rw [vec_ofVec, norm_single, abs_two]

theorem plainRequest_linear :
    plainRequest.Linear (.id ℝ (Space ℝ [1])) (.id ℝ (Space ℝ [1])) :=
  { unitRequest_linear with
    valid := by
      have h := unitRequest_linear.valid
      exact ⟨h.C1_pos, h.C2_pos, h.upsilon_pos, h.upsilon_lt_one, h.tau_pos, h.bound_pos⟩ }

theorem watch_plainRequest : ∃ sol log, watch quietEnvironment plainRequest = .ok (sol, log) := by
  obtain ⟨sol, hsol⟩ := plainRequest_linear.solve_returns quietEnvironment_receptive
  obtain ⟨⟨sol, log⟩, hwatch⟩ := watch_returns quietEnvironment_receptive hsol
  exact ⟨sol, log, hwatch⟩

/-- A watched run of the plain request with two choices of its constants. -/
theorem plain_is_chained_unit :
    ∃ sol sol' log, watch quietEnvironment plainRequest = .ok (sol, log)
      ∧ (chained plainRequest.watched 2).run [] = .ok (sol, log)
      ∧ watch quietEnvironment (plainRequest.sharpened 5 7 (1 / 3) 9) = .ok (sol', log)
      ∧ sol'.outcome = sol.outcome := by
  obtain ⟨sol, log, hsol⟩ := watch_plainRequest
  have hquiet : ∀ event, quietEnvironment.watched.report event = pure () := fun _ => rfl
  obtain ⟨hchained, hsharpened⟩ := plain_is_chained hquiet
    (r := plainRequest.watched) (L := 2) rfl rfl two_pos (by decide) (by decide)
    (show (0 : ℝ) ≤ 1 from zero_le_one) (show (0 : ℝ) ≤ 0 from le_rfl)
    (show ‖vec plainRequest.b.shape plainRequest.b‖ ≠ 0 from norm_plainRequest ▸ two_ne_zero)
  -- The equation of the two computations, run with nothing written down yet.
  have hrun := congrArg (fun x => StateT.run x []) (hsharpened 5 7 (1 / 3) 9 (by norm_num))
  simp only [StateT.run_map] at hrun
  have hother : (fun out : Solution (Watched ℝ Unit ℝ) ℝ Unit ℝ × List (Call Unit ℝ) =>
      (out.1.outcome, out.2)) <$> watch quietEnvironment (plainRequest.sharpened 5 7 (1 / 3) 9)
        = .ok (sol.outcome, log) := by
    refine hrun.trans ?_
    rw [show (solve quietEnvironment.watched plainRequest.watched).run [] = .ok (sol, log)
      from hsol]
    rfl
  obtain ⟨⟨sol', log'⟩, hsol', heq⟩ := map_eq_ok.1 hother
  obtain ⟨houtcome, rfl⟩ := Prod.mk.inj heq
  exact ⟨sol, sol', log', hsol, hchained ▸ hsol, hsol', houtcome⟩

end Solver

end PrimalDual
