/-
  PrimalDual.Proofs.Run.Watch
  ───────────────────────────
  **RUNS WHOSE OBSERVERS ARE WATCHED.**

  A run shows its iterates to two maps of the caller, the error measure and
  the callback.  `Watched` is the monad of the runs that write down every
  argument of the two, and `watch` solves a request in it.

  Watching changes nothing, and what is written down is read off the course
  of the run (`watch_eq`).  Both follow step by step: a watched computation
  does what the computation itself does and appends its calls
  (`run_observe`, `run_steps`, `run_restart`, `run_restarts`).
-/
import PrimalDual.Proofs.Run.Course
import PrimalDual.Proofs.Run.Lift

namespace PrimalDual

/-- A call of an observer. -/
inductive Call (κ α : Type) where
  /-- The error measure was applied to an iterate. -/
  | measured (x : Tensor κ α)
  /-- The callback was given an iterate with its number. -/
  | shown (k : ℤ) (x : Tensor κ α)

/-- A computation that may fail and writes down the calls of the observers. -/
abbrev Watched (R κ α : Type) : Type → Type :=
  StateT (List (Call κ α)) (Except (Failure R))

variable {R κ α β : Type}

namespace Watched

/-- Writes down a call. -/
def note (call : Call κ α) : Watched R κ α Unit := modify (· ++ [call])

/-- The error measure with its calls written down. -/
def measure (f : Tensor κ α → Except (Failure R) R) (x : Tensor κ α) : Watched R κ α R := do
  note (.measured x)
  liftM (f x)

/-- The callback with its calls written down. -/
def display (f : ℤ → Tensor κ α → Except (Failure R) Unit) (k : ℤ) (x : Tensor κ α) :
    Watched R κ α Unit := do
  note (.shown k x)
  liftM (f k x)

theorem ok_bind {ε γ : Type} (a : β) (f : β → Except ε γ) : (Except.ok a >>= f) = f a := rfl

theorem run_lift (x : Except (Failure R) β) (l : List (Call κ α)) :
    (liftM x : Watched R κ α β).run l = x >>= fun a => pure (a, l) := rfl

/-- A measurement that returns is written down with its argument. -/
theorem run_measure (f : Tensor κ α → Except (Failure R) R) (x : Tensor κ α)
    (l : List (Call κ α)) :
    (measure f x).run l = f x >>= fun e => pure (e, l ++ [.measured x]) := rfl

/-- An iterate that is shown is written down with its number. -/
theorem run_display (f : ℤ → Tensor κ α → Except (Failure R) Unit) (k : ℤ) (x : Tensor κ α)
    (l : List (Call κ α)) :
    (display f k x).run l = f k x >>= fun _ => pure ((), l ++ [.shown k x]) := rfl

end Watched

/-! ## §1. The parts of a request, watched. -/

/-- The settings with a watched error measure. -/
def Settings.watched (s : Settings (Except (Failure R)) R κ α) :
    Settings (Watched R κ α) R κ α where
  C1 := s.C1
  C2 := s.C2
  store := s.store
  outputType := s.outputType
  upsilon := s.upsilon
  bound := s.bound
  tau := s.tau
  display := s.display
  error := s.error.map Watched.measure
  analysis := s.analysis.map Representation.lift
  q := s.q

/-- The options with a watched error measure. -/
def Options.watched (o : Options (Except (Failure R)) R κ α) : Options (Watched R κ α) R κ α where
  C1 := o.C1
  C2 := o.C2
  store := o.store
  outputType := o.outputType
  upsilon := o.upsilon
  bound := o.bound
  tau := o.tau
  display := o.display
  error := o.error.map Watched.measure
  analysis := o.analysis.map Representation.lift
  q := o.q

/-- The request with watched observers. -/
def Request.watched (r : Request (Except (Failure R)) R κ α) : Request (Watched R κ α) R κ α where
  A := r.A.lift
  b := r.b
  epsilon := r.epsilon
  delta := r.delta
  prox x t := liftM (r.prox x t)
  x0 := r.x0
  y0 := r.y0
  nIter := r.nIter
  kIter := r.kIter
  options := r.options.watched
  callback := r.callback.map Watched.display

/-- The observer with its calls written down. -/
def Observer.watched (o : Observer (Except (Failure R)) R κ α) :
    Observer (Watched R κ α) R κ α where
  al := o.al
  scale := o.scale
  outputType := o.outputType
  store := o.store
  error := o.error.map Watched.measure
  callback := o.callback.map Watched.display
  offset := o.offset

/-- The schedule with watched observers. -/
def Schedule.watched (s : Schedule (Except (Failure R)) R κ α) :
    Schedule (Watched R κ α) R κ α where
  b := s.b
  K := s.K.lift
  epsilon := s.epsilon
  delta := s.delta
  prox x t := liftM (s.prox x t)
  kIter := s.kIter
  options := s.options.watched
  outputType := s.outputType
  scale := s.scale
  callback := s.callback.map Watched.display

/-- The prepared problem with watched observers. -/
def Prepared.watched (p : Prepared (Except (Failure R)) R κ α) : Prepared (Watched R κ α) R κ α :=
  ⟨p.schedule.watched, p.start⟩

/-- The solution with the options of a watched run. -/
def Solution.watched (sol : Solution (Except (Failure R)) R κ α) :
    Solution (Watched R κ α) R κ α where
  x := sol.x
  y := sol.y
  iterates := sol.iterates
  errors := sol.errors
  nIter := sol.nIter
  kIter := sol.kIter
  options := sol.options.watched
  scale := sol.scale
  alHistory := sol.alHistory
  epsHistory := sol.epsHistory

/-- The environment of a watched run. -/
def Environment.watched (env : Environment (Except (Failure R)) R κ α) :
    Environment (Watched R κ α) R κ α where
  draw shape kind := liftM (env.draw shape kind)
  report event := liftM (env.report event)

/-! ## §2. Preparation. -/

variable [Control R]

/-- Watched settings pass the checks that the settings themselves pass. -/
theorem Settings.accept_watched (s : Settings (Except (Failure R)) R κ α) :
    s.watched.accept = Options.watched <$> s.accept := by
  obtain ⟨C1, C2, store, outputType, upsilon, bound, tau, display, error, analysis, q⟩ := s
  match C1, C2 with
  | none, none | none, some _ | some _, none => rfl
  | some C1, some C2 =>
    unfold accept watched
    dsimp only
    -- Guard by guard: where one refuses, it refuses both.
    generalize (Control.le C1 Control.zero || Control.le C2 Control.zero) = sharpness
    generalize (!(Control.lt Control.zero upsilon && Control.lt upsilon Control.one)) = rate
    generalize Control.le tau Control.zero = step
    cases sharpness with
    | true => rfl
    | false =>
      cases OutputType.ofNumber? outputType with
      | none => rfl
      | some type =>
        cases rate with
        | true => rfl
        | false =>
          cases step with
          | true => rfl
          | false =>
            cases bound with
            | none => cases q.toNat? with
              | error => rfl
              | ok q => cases analysis <;> cases q <;> rfl
            | some bound =>
              dsimp only
              generalize Control.le bound Control.zero = nonpositive
              cases nonpositive with
              | true => rfl
              | false => cases q.toNat? with
                | error => rfl
                | ok q => cases analysis <;> cases q <;> rfl

/-- Watched settings make the options that the settings make, watched. -/
theorem Settings.check_watched (s : Settings (Except (Failure R)) R κ α) :
    s.watched.check = Options.watched <$> s.check := by
  cases hq : s.q with
  | whole n =>
    have hq' : s.watched.q = .whole n := hq
    rw [check_of_whole hq, check_of_whole hq', accept_watched]
  | fractional r =>
    have hq' : s.watched.q = .fractional r := hq
    unfold check
    rw [hq, hq', accept_watched]
    cases s.accept <;> rfl

theorem Options.change_watched (o : Options (Except (Failure R)) R κ α) (bound : R) :
    o.watched.change (fun s => { s with bound := some bound })
      = Options.watched <$> o.change fun s => { s with bound := some bound } :=
  Settings.check_watched { o.settings with bound := some bound }

variable [Kinds κ] [Entry α R κ]

omit [Control R] [Kinds κ] [Entry α R κ] in
/-- Reports are not written down. -/
theorem Environment.tell_watched (env : Environment (Except (Failure R)) R κ α) (display : Bool)
    (event : Progress R) : env.watched.tell display event = liftM (env.tell display event) := by
  cases display <;> rfl

namespace Solver

variable (env : Environment (Except (Failure R)) R κ α)

/-- The estimate of a bound calls neither observer. -/
theorem ensureBound_watched (K : Operator (Except (Failure R)) R κ α) (x : Tensor κ α)
    (o : Options (Except (Failure R)) R κ α) :
    ensureBound env.watched K.lift x o.watched
      = liftM (Options.watched <$> ensureBound env K x o) := by
  cases hbound : o.bound with
  | some bound =>
    rw [ensureBound_some env K x hbound, ensureBound_some env.watched K.lift x (o := o.watched) hbound]
    rfl
  | none =>
    have hestimate := NormEstimate.estimate_lift (n := Watched R κ α) env.draw K x.shape
      NormEstimate.defaultIterations NormEstimate.defaultMargin x.kind
    rw [ensureBound_none env K x hbound, ensureBound_none env.watched K.lift x hbound]
    simp only [show env.watched.draw = fun s k => liftM (env.draw s k) from rfl, hestimate,
      Environment.tell_watched, Options.change_watched, liftM, monadLift_bind, monadLift_pure,
      map_eq_pure_bind, bind_assoc, pure_bind]
    rfl

/-- The start of the primal estimate is the one that is not watched. -/
theorem primalStart_watched (K : Operator (Except (Failure R)) R κ α) (b : Tensor κ α)
    (x : Option (Tensor κ α)) :
    (primalStart K.lift b x : Watched R κ α (Tensor κ α)) = liftM (primalStart K b x) := by
  cases x with
  | some x => rfl
  | none =>
    unfold primalStart
    simp only [Operator.adjoint_lift, liftM, monadLift_bind, monadLift_pure]

/-- The stacked operator of a watched request is the stacked one, carried over. -/
theorem stackAnalysis_watched (K : Operator (Except (Failure R)) R κ α) (b x : Tensor κ α)
    (q : ℕ) (analysis : Option (Representation (Except (Failure R)) R κ α)) :
    (stackAnalysis K.lift b x q (analysis.map Representation.lift) : Watched R κ α _)
      = liftM ((fun out => (out.1.lift, out.2)) <$> stackAnalysis K b x q analysis) := by
  cases analysis with
  | none => rfl
  | some B =>
    unfold stackAnalysis
    simp only [Option.map, Representation.toOperator_lift, Operator.forward_lift,
      Operator.stack_lift, liftM, monadLift_bind, monadLift_pure, map_eq_pure_bind, bind_assoc,
      pure_bind]
    rfl

omit [Control R] [Kinds κ] [Entry α R κ] in
theorem measurement_watched (r : Request (Except (Failure R)) R κ α) :
    measurement r.watched = Operator.lift <$> measurement r := by
  unfold measurement
  rw [show r.watched.A = r.A.lift from rfl, Representation.toOperator_lift]
  simp only [map_eq_pure_bind, bind_assoc, pure_bind]
  rfl

/-- The units of a watched request are those of the request. -/
theorem normalise_watched (r : Request (Except (Failure R)) R κ α)
    (K : Operator (Except (Failure R)) R κ α) (b x y : Tensor κ α)
    (o : Options (Except (Failure R)) R κ α) :
    normalise r.watched K.lift b x y o.watched = Prepared.watched <$> normalise r K b x y o := by
  unfold normalise
  cases b.normValue with
  | error e => rfl
  | ok scale =>
    dsimp only [bind, Except.bind]
    generalize Control.eq scale Control.zero = zero
    cases zero with
    | true => rfl
    | false =>
      -- Both read the same three numbers.
      show _ = Prepared.watched <$> (Control.quotient r.epsilon scale >>= fun epsilon =>
        Control.quotient r.delta scale >>= fun delta =>
        (b.divBy scale).normValue >>= fun length => _)
      simp only [map_eq_pure_bind, bind_assoc, pure_bind]
      rfl

/-- A watched request is prepared as the request itself. -/
theorem prepare_watched (r : Request (Except (Failure R)) R κ α) :
    prepare env.watched r.watched = liftM (Prepared.watched <$> prepare env r) := by
  unfold prepare
  have hoptions : r.watched.options = r.options.watched := rfl
  have hb : r.watched.b = r.b := rfl
  have hanalysis : r.options.watched.analysis = r.options.analysis.map Representation.lift := rfl
  simp only [hoptions, hb, hanalysis, measurement_watched, primalStart_watched,
    stackAnalysis_watched, ensureBound_watched, normalise_watched, liftM, monadLift_bind,
    monadLift_pure, map_eq_pure_bind, bind_assoc, pure_bind]
  rfl

end Solver

/-! ## §3. Calls. -/

namespace Observer

variable (o : Observer (Except (Failure R)) R κ α)

/-- The calls with which the iterate after `k` steps is observed. -/
def calls (k : ℕ) (s : Iterate κ α) : List (Call κ α) :=
  (if o.error.isSome then [.measured (Tensor.scale o.scale (o.snapshot k s))] else [])
    ++ if o.callback.isSome then [.shown (o.offset + k) (o.shown s)] else []

/-- The calls for the iterates that follow `k` steps. -/
def callsAlong : ℕ → List (Iterate κ α) → List (Call κ α)
  | _, [] => []
  | k, s :: path => o.calls (k + 1) s ++ callsAlong (k + 1) path

/-- An observation adds its calls to those before it. -/
theorem run_observe (k : ℕ) (s : Iterate κ α) (l : List (Call κ α)) :
    (o.watched.observe k s).run l
      = o.observe k s >>= fun record => pure (record, l ++ o.calls k s) := by
  obtain ⟨al, scale, type, store, error, callback, offset⟩ := o
  unfold observe watched calls
  cases error <;> cases callback <;>
    simp only [Option.map, Option.isSome, map_eq_pure_bind, pure_bind, bind_assoc, StateT.run_bind,
      StateT.run_pure, Watched.run_measure, Watched.run_display, List.append_assoc,
      List.append_nil, List.nil_append, if_true, Bool.false_eq_true, if_false] <;> rfl

end Observer

variable {p : Problem (Except (Failure R)) R κ α} {o : Observer (Except (Failure R)) R κ α}

/-- Watched steps do what the steps do and append the calls along their path. -/
theorem Inner.run_steps {n k : ℕ} {s : Iterate κ α} {l : List (Call κ α)} :
    (Inner.steps p.lift o.watched n k s).run l = (do
      let out ← Inner.steps p o n k s
      let path ← p.path n s
      return (out, l ++ o.callsAlong k path)) := by
  induction n generalizing k s l with
  | zero =>
    show Except.ok ((s, []), l) = Except.ok ((s, []), l ++ [])
    rw [List.append_nil]
  | succ n ih =>
    rw [Inner.steps, Inner.steps, Problem.path]
    simp only [Problem.advance_lift, StateT.run_bind, Observer.run_observe, Watched.run_lift, ih,
      bind_assoc, pure_bind]
    -- Where a part fails, both sides fail with it; where all return, the calls are joined.
    cases p.advance s with
    | error e => rfl
    | ok next =>
      simp only [Watched.ok_bind]
      cases o.observe (k + 1) next with
      | error e => rfl
      | ok record =>
        simp only [Watched.ok_bind]
        cases Inner.steps p o n (k + 1) next with
        | error e => rfl
        | ok out =>
          simp only [Watched.ok_bind]
          cases p.path n next with
          | error e => rfl
          | ok path =>
            refine congrArg (fun l => Except.ok ((out.1, record :: out.2), l)) ?_
            exact List.append_assoc _ _ _

/-- **A watched run of steps returns what the run returns**, and the calls along its path. -/
theorem Inner.run_run {kIter : ℤ} {x y : Tensor κ α} {l : List (Call κ α)} :
    (Inner.run p.lift o.watched kIter x y).run l = (do
      let out ← Inner.run p o kIter x y
      let path ← p.path kIter.toNat (.start x y)
      return (out, l ++ o.callsAlong 0 path)) := by
  unfold Inner.run
  simp only [StateT.run_bind, StateT.run_pure, Inner.run_steps, bind_assoc, pure_bind]
  rfl

namespace Schedule

variable (s : Schedule (Except (Failure R)) R κ α)

/-- The calls of a restart that follows `offset` steps. -/
def callsOf (leg : Leg R κ α) (offset : ℤ) : List (Call κ α) :=
  (s.observer leg.al leg.type offset).callsAlong 0 leg.path

/-- The calls of the restarts that follow `j` others. -/
def calls : ℕ → List (Leg R κ α) → List (Call κ α)
  | _, [] => []
  | j, leg :: legs => s.callsOf leg (j * s.kIter) ++ calls (j + 1) legs

theorem problem_watched (al step : R) :
    s.watched.problem al step = (s.problem al step).lift := rfl

omit [Control R] [Kinds κ] [Entry α R κ] in
theorem observer_watched (al : R) (type : OutputType) (offset : ℤ) :
    s.watched.observer al type offset = (s.observer al type offset).watched := rfl

/-- A watched restart does what the restart does and appends its calls. -/
theorem run_restart (state : RestartState R κ α) (al : R) (offset : ℤ) (l : List (Call κ α)) :
    (s.watched.restart state al offset).run l = (do
      let out ← s.restart state al offset
      let leg ← s.leg state al
      return (out, l ++ s.callsOf leg offset)) := by
  have hstep : stepSize s.watched.options = stepSize s.options := rfl
  have htype : s.watched.outputType = s.outputType := rfl
  have hkIter : s.watched.kIter = s.kIter := rfl
  have hscale : s.watched.scale = s.scale := rfl
  have hnext : s.watched.nextError state.eps = s.nextError state.eps := rfl
  unfold restart leg
  simp only [problem_watched, observer_watched, hstep, htype, hkIter, hscale, hnext,
    StateT.run_bind, StateT.run_pure, Watched.run_lift, Inner.run_run, bind_assoc, pure_bind]
  -- Both sides read the step and the type; the right one reads them twice.
  cases stepSize s.options with
  | error e => rfl
  | ok step => cases OutputType.find s.outputType with
    | error e => rfl
    | ok type =>
      simp only [liftM, monadLift_self, Watched.ok_bind]
      rfl

end Schedule

namespace Solver

variable (env : Environment (Except (Failure R)) R κ α)

/-- **Watched restarts return what the restarts return**, and the calls of their course. -/
theorem run_restarts (s : Schedule (Except (Failure R)) R κ α) (n j : ℕ)
    (state : RestartState R κ α) (l : List (Call κ α)) :
    (restarts env.watched s.watched n j state).run l = (do
      let out ← restarts env s n j state
      let legs ← s.course n state
      return (out, l ++ s.calls j legs)) := by
  induction n generalizing j state l with
  | zero =>
    show Except.ok ((state, (⟨[], [], []⟩ : Trail R κ α)), l) = Except.ok (_, l ++ [])
    rw [List.append_nil]
  | succ n ih =>
    rw [restarts_succ, restarts_succ, Schedule.course]
    simp only [Environment.tell_watched, StateT.run_bind, StateT.run_pure, Watched.run_lift,
      Schedule.run_restart, ih, bind_assoc, pure_bind]
    have hrescale : rescale s.watched state.eps = rescale s state.eps := rfl
    have hdisplay : s.watched.options.display = s.options.display := rfl
    have hscale : s.watched.scale = s.scale := rfl
    have hkIter : s.watched.kIter = s.kIter := rfl
    simp only [hrescale, hdisplay, hscale, hkIter]
    -- Where a part fails, both sides fail with it; else the course has the leg of the restart.
    cases rescale s state.eps with
    | error e => rfl
    | ok al =>
      simp only [liftM, monadLift_self, Watched.ok_bind]
      cases env.tell s.options.display (.restarting (j + 1) al (state.eps * s.scale)) with
      | error e => rfl
      | ok u =>
        simp only [Watched.ok_bind]
        cases hrestart : s.restart state al (j * s.kIter) with
        | error e => rfl
        | ok out =>
          obtain ⟨leg, hleg, -, hnext⟩ := Schedule.restart_ok hrestart
          simp only [Watched.ok_bind, hleg, hnext]
          simp only [Schedule.calls, List.append_assoc]

omit [Kinds κ] [Entry α R κ] in
theorem announce_watched (nIter : ℤ) (s : Schedule (Except (Failure R)) R κ α) :
    announce env.watched nIter s.watched = liftM (announce env nIter s) := by
  have hopening : opening nIter s.watched = opening nIter s := rfl
  have hdisplay : s.watched.options.display = s.options.display := rfl
  unfold announce
  rw [hopening, hdisplay]
  cases s.options.display
  · simp only [Bool.false_eq_true, if_false, liftM, monadLift_pure]
  · simp only [if_true, liftM, monadLift_bind, monadLift_self]
    rfl

/-- The solution of a request with the calls of its observers. -/
def watch (r : Request (Except (Failure R)) R κ α) :
    Except (Failure R) (Solution (Watched R κ α) R κ α × List (Call κ α)) :=
  (solve env.watched r.watched).run []

/-- **Watching changes nothing**, and the calls are those along the course of the run. -/
theorem watch_eq (r : Request (Except (Failure R)) R κ α) :
    watch env r = (do
      let sol ← solve env r
      let ready ← prepare env r
      let legs ← ready.schedule.course r.nIter.toNat ready.start
      return (sol.watched, ready.schedule.calls 0 legs)) := by
  have hready : ∀ ready : Prepared (Except (Failure R)) R κ α,
      ready.watched.schedule = ready.schedule.watched := fun _ => rfl
  unfold watch
  rw [solve_eq, solve_eq, prepare_watched]
  simp only [hready, announce_watched, Environment.tell_watched, StateT.run_bind, StateT.run_pure,
    Watched.run_lift, run_restarts, map_eq_pure_bind, bind_assoc, pure_bind]
  cases prepare env r with
  | error e => rfl
  | ok ready =>
    simp only [Watched.ok_bind, show r.watched.nIter = r.nIter from rfl,
      show ready.watched.start = ready.start from rfl]
    cases announce env r.nIter ready.schedule with
    | error e => rfl
    | ok u =>
      simp only [Watched.ok_bind]
      cases hrestarts : restarts env ready.schedule r.nIter.toNat 0 ready.start with
      | error e => rfl
      | ok out =>
        -- Restarts that return have a course, so it does not matter when it is computed.
        obtain ⟨legs, -, hlegs, -⟩ := restarts_ok hrestarts
        simp only [Watched.ok_bind, hlegs, List.nil_append]
        rfl

/-- A watched run returns if the run itself does, and then the calls are those of its course. -/
theorem watch_ok {r : Request (Except (Failure R)) R κ α}
    {sol : Solution (Watched R κ α) R κ α} {log : List (Call κ α)}
    (h : watch env r = .ok (sol, log)) :
    ∃ ready legs records, prepare env r = .ok ready
      ∧ ready.schedule.course r.nIter.toNat ready.start = .ok legs
      ∧ ready.schedule.records 0 legs = .ok records
      ∧ sol = (solution r.nIter ready.schedule (Leg.last ready.start legs)
          (ready.schedule.trail legs records)).watched
      ∧ log = ready.schedule.calls 0 legs := by
  rw [watch_eq] at h
  obtain ⟨sol', hsol, h⟩ := bind_eq_ok.1 h
  obtain ⟨ready, hready, h⟩ := bind_eq_ok.1 h
  obtain ⟨legs, hlegs, h⟩ := bind_eq_ok.1 h
  cases h
  obtain ⟨ready', legs', records, hready', hlegs', hrecords, rfl⟩ := solve_ok hsol
  cases hready.symm.trans hready'
  cases hlegs.symm.trans hlegs'
  exact ⟨ready, legs, records, hready, hlegs, hrecords, rfl, rfl⟩

variable {env}

/-- **A course that can be observed is the course of the watched run**, with all of its calls. -/
theorem watch_of_course (henv : env.Receptive) {r : Request (Except (Failure R)) R κ α}
    {ready : Prepared (Except (Failure R)) R κ α} {legs : List (Leg R κ α)}
    {records : List (RestartRecord R κ α)} (hready : prepare env r = .ok ready)
    (hlegs : ready.schedule.course r.nIter.toNat ready.start = .ok legs)
    (hrecords : ready.schedule.records 0 legs = .ok records) :
    watch env r = .ok ((solution r.nIter ready.schedule (Leg.last ready.start legs)
      (ready.schedule.trail legs records)).watched, ready.schedule.calls 0 legs) := by
  rw [watch_eq, solve_of_course henv hready hlegs hrecords, hready]
  apply bind_returns rfl
  apply bind_returns rfl
  apply bind_returns hlegs
  rfl

/-- A request that is solved can be watched. -/
theorem watch_returns (henv : env.Receptive) {r : Request (Except (Failure R)) R κ α}
    {sol : Solution (Except (Failure R)) R κ α} (h : solve env r = .ok sol) :
    ∃ out, watch env r = .ok out := by
  obtain ⟨ready, legs, records, hready, hlegs, hrecords, -⟩ := solve_ok h
  exact ⟨_, watch_of_course henv hready hlegs hrecords⟩

end Solver

end PrimalDual
