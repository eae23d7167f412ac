/-
  PrimalDual.Proofs.Run.WarmStart
  ───────────────────────────────
  **PLAIN RUNS THAT ARE TAKEN UP AGAIN.**

  A plain run may be stopped after any of its restarts, and a second run
  started from what the first one returned.  Three things have to hold for
  it to go on as if it had never been stopped:

      units     what leaves the solver is multiplied by the scale, and what
                enters it is divided by the same one
      vectors   the dual estimate is a vector at all times, so nothing is
                lost when it is read as one again (`course_vectors`)
      factors   a plain restart reads the two estimates and not the target
                error, which begins anew (`course_plain`)

  The analysis operator is stacked in the shape that it gives to the image
  of the primal start.  A start of another shape than the estimates stacks
  another operator, so the law asks that the two images have one shape.
-/
import PrimalDual.Proofs.Inner.Inversion
import PrimalDual.Proofs.Operator.Language
import PrimalDual.Proofs.Run.FewerRestarts
import PrimalDual.Proofs.Run.Plain

namespace PrimalDual

open Tensor

variable {R κ α β γ δ : Type}

/-! ## §1. Vectors. -/

namespace Tensor

/-- A vector is its own flattening. -/
theorem flatten_of_axes {x : Tensor κ α} (h : x.axes = 1) : x.flatten = x := by
  obtain ⟨n, hn⟩ := List.length_eq_one_iff.1 h
  exact flatten_of_vector hn

theorem axes_flatten (x : Tensor κ α) : x.flatten.axes = 1 := rfl

/-- Two vectors are combined to a vector. -/
theorem axes_zipWith {kind : κ} {f : β → γ → δ} {da : β} {db : γ} {x : Tensor κ β}
    {y : Tensor κ γ} {z : Tensor κ δ}
    (h : zipWith kind f da db x y = (.ok z : Except (Failure R) _)) (hx : x.axes = 1)
    (hy : y.axes = 1) : z.axes = 1 := by
  obtain ⟨n, hn⟩ := List.length_eq_one_iff.1 hx
  obtain ⟨k, hk⟩ := List.length_eq_one_iff.1 hy
  have hstretch := shape_zipWith h
  rw [hn, hk] at hstretch
  unfold axes
  rw [(stretch_vectors hstretch).2]
  rfl

theorem axes_append [Control R] [Kinds κ] [Entry α R κ] {x y z : Tensor κ α}
    (h : x.append y = (.ok z : Except (Failure R) _)) : z.axes = 1 := by
  unfold axes
  rw [shape_append h, List.length_singleton]

end Tensor

variable [Control R] [Kinds κ] [Entry α R κ]

/-! ## §2. The dual estimate is a vector. -/

/-- The images of an operator are vectors. -/
def Operator.GivesVectors (K : Operator (Except (Failure R)) R κ α) : Prop :=
  ∀ x u, K.forward x = .ok u → u.axes = 1

theorem Operator.givesVectors_flattened (A : Operator (Except (Failure R)) R κ α) (shape : List ℤ) :
    (flattened A shape).GivesVectors := by
  intro x u h
  obtain ⟨v, -, h⟩ := bind_eq_ok.1 h
  cases h
  exact axes_flatten v

theorem Operator.givesVectors_stacked (A B : Operator (Except (Failure R)) R κ α) (q : Quantity R) :
    (stacked A B q).GivesVectors := by
  intro x u h
  obtain ⟨v, -, h⟩ := bind_eq_ok.1 h
  obtain ⟨w, -, h⟩ := bind_eq_ok.1 h
  exact axes_append h

/-- Dual estimates are vectors, sums included. -/
structure Iterate.DualVector (s : Iterate κ α) : Prop where
  y : s.y.axes = 1
  ySum : s.ySum.axes = 1

/-- The problem moves vectors to vectors. -/
structure Problem.OnVectors (p : Problem (Except (Failure R)) R κ α) : Prop where
  K : p.K.GivesVectors
  b : p.b.axes = 1

theorem Problem.OnVectors.advance {p : Problem (Except (Failure R)) R κ α} (hp : p.OnVectors)
    {s next : Iterate κ α} (hs : s.DualVector) (h : p.advance s = .ok next) : next.DualVector := by
  obtain ⟨-, -, e, image, -, -, -, -, himage, hy⟩ := advance_ok h
  obtain ⟨-, hySum⟩ := advance_sums h
  -- The dual half adds vectors to a vector, and the dual map keeps shapes.
  obtain ⟨moved, hmoved, hy⟩ := bind_eq_ok.1 hy
  obtain ⟨v, hv, hy⟩ := bind_eq_ok.1 hy
  have himage' : image.axes = 1 := hp.K _ _ himage
  have hv' : v.axes = 1 := axes_zipWith hv (axes_zipWith hmoved hs.y himage') hp.b
  have hy' : next.y.axes = 1 := by
    unfold axes at hv' ⊢
    rw [Prox.shape_dual hy, hv']
  exact ⟨hy', axes_zipWith hySum hs.ySum hy'⟩

theorem Problem.OnVectors.path {p : Problem (Except (Failure R)) R κ α} (hp : p.OnVectors) {n : ℕ}
    {s : Iterate κ α} (hs : s.DualVector) {path : List (Iterate κ α)} (h : p.path n s = .ok path) :
    (path.getLastD s).DualVector := by
  induction n generalizing s path with
  | zero =>
    cases h
    exact hs
  | succ n ih =>
    obtain ⟨next, rest, hnext, hrest, rfl⟩ := path_succ_ok h
    rw [List.getLastD_cons]
    exact ih (hp.advance hs hnext) hrest

namespace Schedule

variable {s : Schedule (Except (Failure R)) R κ α}

/-- A restart hands on a vector. -/
theorem leg_vector (hK : s.K.GivesVectors) (hb : s.b.axes = 1) {state : RestartState R κ α} {al : R}
    {leg : Leg R κ α} (hy : state.y.axes = 1) (h : s.leg state al = .ok leg) :
    leg.next.y.axes = 1 := by
  obtain ⟨step, -, -, hpath, -, -, hnext⟩ := leg_ok h
  have hp : (s.problem al step).OnVectors := ⟨hK, hb⟩
  have hlast := hp.path (s := first state al) ⟨hy, hy⟩ hpath
  rw [hnext]
  unfold handOn Inner.result
  dsimp only
  split
  · exact hlast.ySum
  · exact hlast.y

/-- **The dual estimate is a vector after every restart of a course.** -/
theorem course_vectors (hK : s.K.GivesVectors) (hb : s.b.axes = 1) {n : ℕ}
    {state : RestartState R κ α} (hy : state.y.axes = 1) {legs : List (Leg R κ α)}
    (h : s.course n state = .ok legs) : (Leg.last state legs).y.axes = 1 := by
  induction n generalizing state legs with
  | zero =>
    cases h
    exact hy
  | succ n ih =>
    obtain ⟨al, leg, later, -, hleg, hlater, rfl⟩ := course_succ_ok h
    rw [Leg.last_cons]
    exact ih (leg_vector hK hb hy hleg) hlater

end Schedule

/-- What is prepared of a request is a problem on vectors. -/
theorem Solver.prepare_vectors {env : Environment (Except (Failure R)) R κ α}
    {r : Request (Except (Failure R)) R κ α} {ready : Prepared (Except (Failure R)) R κ α}
    (h : prepare env r = .ok ready) :
    ready.schedule.K.GivesVectors ∧ ready.schedule.b.axes = 1 ∧ ready.start.y.axes = 1 := by
  obtain ⟨K, x0, stacked, o, -, hK, -, hstacked, -, hready⟩ := prepare_eq_ok.1 h
  obtain ⟨scale, epsilon, delta, length, -, -, -, -, -, rfl⟩ := normalise_eq_ok.1 hready
  obtain ⟨A, -, hK⟩ := bind_eq_ok.1 hK
  cases hK
  -- Dividing by the norm changes no shape.
  suffices hvectors : stacked.1.GivesVectors ∧ stacked.2.axes = 1 from
    ⟨hvectors.1, hvectors.2, axes_flatten _⟩
  cases hanalysis : r.options.analysis with
  | none =>
    rw [hanalysis] at hstacked
    cases hstacked
    exact ⟨Operator.givesVectors_flattened _ _, axes_flatten _⟩
  | some analysis =>
    rw [hanalysis] at hstacked
    obtain ⟨B, image, -, -, hoperator, hb⟩ := stackAnalysis_eq_ok.1 hstacked
    refine ⟨?_, axes_append hb⟩
    rw [Operator.stack_ok hoperator]
    exact Operator.givesVectors_stacked _ _ _

/-! ## §3. Plain restarts read no target error. -/

/-- Two restarts that did the same, but for their target errors. -/
structure Leg.Same (leg leg' : Leg R κ α) : Prop where
  al : leg'.al = leg.al
  type : leg'.type = leg.type
  path : leg'.path = leg.path
  psi : leg'.next.psi = leg.next.psi
  y : leg'.next.y = leg.next.y

omit [Control R] [Kinds κ] [Entry α R κ] in
/-- The same restarts end in the same estimates. -/
theorem Leg.Same.last {legs legs' : List (Leg R κ α)} (h : List.Forall₂ Leg.Same legs legs')
    {state state' : RestartState R κ α} (hpsi : state'.psi = state.psi) (hy : state'.y = state.y) :
    (Leg.last state' legs').psi = (Leg.last state legs).psi
      ∧ (Leg.last state' legs').y = (Leg.last state legs).y := by
  induction h generalizing state state' with
  | nil => exact ⟨hpsi, hy⟩
  | cons hleg _ ih =>
    rw [Leg.last_cons, Leg.last_cons]
    exact ih hleg.psi hleg.y

namespace Schedule

variable {s : Schedule (Except (Failure R)) R κ α}

theorem leg_plain {state state' : RestartState R κ α} (hpsi : state'.psi = state.psi)
    (hy : state'.y = state.y) {al : R} {leg : Leg R κ α} (h : s.leg state al = .ok leg) :
    ∃ leg', s.leg state' al = .ok leg' ∧ Leg.Same leg leg' := by
  obtain ⟨step, hstep, h⟩ := bind_eq_ok.1 h
  obtain ⟨type, htype, h⟩ := bind_eq_ok.1 h
  obtain ⟨path, hpath, h⟩ := bind_eq_ok.1 h
  cases h
  have hfirst : (first state' al : Iterate κ α) = first state al := by
    unfold first
    rw [hpsi, hy]
  refine ⟨_, leg_of_path hstep htype (hfirst ▸ hpath), rfl, rfl, rfl, ?_, ?_⟩
  · rw [hfirst]
    rfl
  · rw [hfirst]
    rfl

/-- **Plain restarts from the same estimates do the same**, whatever the target error. -/
theorem course_plain (hplain : s.options.outputType = .plain) {n : ℕ}
    {state state' : RestartState R κ α} (hpsi : state'.psi = state.psi) (hy : state'.y = state.y)
    {legs : List (Leg R κ α)} (h : s.course n state = .ok legs) :
    ∃ legs', s.course n state' = .ok legs' ∧ List.Forall₂ Leg.Same legs legs' := by
  have hrescale : ∀ eps eps', Solver.rescale s eps = Solver.rescale s eps' := by
    intro eps eps'
    unfold Solver.rescale
    rw [if_pos hplain, if_pos hplain]
  induction n generalizing state state' legs with
  | zero =>
    cases h
    exact ⟨[], rfl, .nil⟩
  | succ n ih =>
    obtain ⟨al, leg, later, hal, hleg, hlater, rfl⟩ := course_succ_ok h
    obtain ⟨leg', hleg', hsame⟩ := leg_plain hpsi hy hleg
    obtain ⟨later', hlater', hrest⟩ := ih hsame.psi hsame.y hlater
    have hal' : Solver.rescale s state'.eps = .ok al := by
      rw [hrescale state'.eps state.eps]
      exact hal
    exact ⟨leg' :: later', course_cons hal' hleg' hlater', .cons hsame hrest⟩

section Renumbered

variable (hcallback : ∀ f ∈ s.callback, ∀ k x, f k x = .ok ())
include hcallback

/-- If the callback takes every number, nothing is observed of the numbers. -/
theorem observe_renumbered (al : R) (type : OutputType) (offset offset' : ℤ) (k : ℕ)
    (it : Iterate κ α) :
    (s.observer al type offset').observe k it = (s.observer al type offset).observe k it := by
  have hpresented : ∀ offset, (s.observer al type offset).presented k it = .ok () := by
    intro offset
    cases hf : s.callback with
    | none => exact Observer.presented_none hf
    | some f => exact (Observer.presented_some hf).trans (hcallback f hf _ _)
  rw [Observer.observe_eq, Observer.observe_eq, hpresented, hpresented]
  rfl

theorem recordsAlong_renumbered (al : R) (type : OutputType) (offset offset' : ℤ)
    (path : List (Iterate κ α)) (k : ℕ) :
    (s.observer al type offset').recordsAlong k path
      = (s.observer al type offset).recordsAlong k path := by
  induction path generalizing k with
  | nil => rfl
  | cons it path ih =>
    unfold Observer.recordsAlong
    rw [observe_renumbered hcallback al type offset offset', ih]

/-- The same restarts leave the same records. -/
theorem records_same {legs legs' : List (Leg R κ α)} (hlegs : List.Forall₂ Leg.Same legs legs')
    (j j' : ℕ) : s.records j' legs' = s.records j legs := by
  induction hlegs generalizing j j' with
  | nil => rfl
  | @cons leg leg' _ _ hleg _ ih =>
    have hrecord : s.record leg' (j' * s.kIter) = s.record leg (j * s.kIter) := by
      unfold record
      rw [hleg.al, hleg.type, hleg.path,
        recordsAlong_renumbered hcallback leg.al leg.type (j * s.kIter)]
    unfold records
    rw [hrecord, ih (j + 1) (j' + 1)]

end Renumbered

end Schedule

/-! ## §4. A request that is taken up again. -/

/-- The request for `n` restarts from given estimates. -/
def Request.continuing {m : Type → Type} (r : Request m R κ α) (n : ℤ) (x y : Tensor κ α) :
    Request m R κ α :=
  { r with
    nIter := n
    x0 := some x
    y0 := some y }

/-- The analysis operator of a request, if there is one, gives to the image of `x` the shape that
it gives to that of the primal start. -/
def Request.SameRange (r : Request (Except (Failure R)) R κ α) (x : Tensor κ α) : Prop :=
  ∀ rep B A x0 image, r.options.analysis = some rep → rep.toOperator = .ok B →
    Solver.measurement r = .ok A → Solver.primalStart A r.b.flatten r.x0 = .ok x0 →
      B.forward x0 = .ok image → ∃ image', B.forward x = .ok image' ∧ image'.shape = image.shape

namespace Solver

/-- The operator is stacked in the same way for both starts. -/
theorem stackAnalysis_sameRange {r : Request (Except (Failure R)) R κ α} {x x0 b : Tensor κ α}
    {A : Operator (Except (Failure R)) R κ α} (hrange : r.SameRange x)
    (hA : measurement r = .ok A) (hx0 : primalStart A r.b.flatten r.x0 = .ok x0)
    {stacked : Operator (Except (Failure R)) R κ α × Tensor κ α}
    (h : stackAnalysis A b x0 r.options.q r.options.analysis = .ok stacked) :
    stackAnalysis A b x r.options.q r.options.analysis = .ok stacked := by
  cases hanalysis : r.options.analysis with
  | none =>
    rw [hanalysis] at h
    exact h
  | some rep =>
    rw [hanalysis] at h
    obtain ⟨B, image, hB, himage, hoperator, hb⟩ := stackAnalysis_eq_ok.1 h
    obtain ⟨image', himage', hshape⟩ := hrange rep B A x0 image hanalysis hB hA hx0 himage
    exact stackAnalysis_eq_ok.2 ⟨B, image', hB, himage', hshape ▸ hoperator, hb⟩

variable {𝕜 : Type} [RCLike 𝕜] {env : Environment (Except (Failure ℝ)) ℝ Unit 𝕜}
variable {r : Request (Except (Failure ℝ)) ℝ Unit 𝕜}

/-- **A request with a bound that is taken up again is made ready in the same units**, and its
start are the estimates in these units. -/
theorem prepare_continuing {ready : Prepared (Except (Failure ℝ)) ℝ Unit 𝕜}
    (h : prepare env r = .ok ready) {L : ℝ} (hL : r.options.bound = some L) {n : ℤ} (hn : 1 ≤ n)
    {psi y : Tensor Unit 𝕜} (hy : y.axes = 1)
    (hrange : r.SameRange (Tensor.scale ready.schedule.scale psi)) :
    ∃ eps, prepare env (r.continuing n (Tensor.scale ready.schedule.scale psi)
        (Tensor.scale ready.schedule.scale y)) = .ok ⟨ready.schedule, ⟨psi, y, eps⟩⟩ := by
  obtain ⟨K, x0, stacked, o, hcheck, hK, hx0, hstacked, ho, hready⟩ :=
    prepare_eq_ok.1 (prepare_restarting h hn)
  obtain ⟨scale, epsilon, delta, length, hscale, hzero, hepsilon, hdelta, hlength, rfl⟩ :=
    normalise_eq_ok.1 hready
  replace hrange : r.SameRange (Tensor.scale scale psi) := hrange
  replace hzero : scale ≠ 0 := by simpa using hzero
  have hbound : ∀ x, ensureBound env stacked.1 x r.options = .ok r.options :=
    fun x => ensureBound_some env stacked.1 x hL
  obtain rfl : r.options = o := Except.ok.inj ((hbound x0).symm.trans ho)
  -- What enters is divided by the scale by which it was multiplied when it left.
  have hunits : ∀ z : Tensor Unit 𝕜, (Tensor.scale scale z).divBy scale = z := by
    intro z
    have h := divBy_scale hzero z 1
    rw [mul_one, divBy_one] at h
    exact h
  have hvector : (Tensor.scale scale y).flatten = Tensor.scale scale y := flatten_of_axes hy
  have hstacked' := stackAnalysis_sameRange hrange hK hx0 hstacked
  have hnonzero : Control.eq scale Control.zero = false := by
    rw [Control.eq_real, Control.zero_real, decide_eq_false_iff_not]
    exact hzero
  use r.options.C2 * length
  rw [prepare_eq_ok]
  refine ⟨K, Tensor.scale scale psi, stacked, r.options, hcheck, hK, rfl, hstacked', hbound _, ?_⟩
  rw [normalise_eq_ok]
  refine ⟨scale, epsilon, delta, length, hscale, hnonzero, hepsilon, hdelta, hlength, ?_⟩
  unfold inUnits
  rw [show (r.continuing n (Tensor.scale scale psi) (Tensor.scale scale y)).y0
    = some (Tensor.scale scale y) from rfl, Option.getD_some, hvector, hunits, hunits]
  rfl

/-- **A plain run that is stopped and taken up again** goes on as if it had never been stopped. -/
theorem continued_plain (henv : env.Receptive) (hplain : r.options.outputType = .plain) {L : ℝ}
    (hL : r.options.bound = some L) {n₁ n₂ : ℤ} (hn₁ : 1 ≤ n₁) (hn₂ : 1 ≤ n₂)
    {sol sol₁ : Solution (Except (Failure ℝ)) ℝ Unit 𝕜}
    (h : solve env (r.restarting (n₁ + n₂)) = .ok sol)
    (h₁ : solve env (r.restarting n₁) = .ok sol₁) (hrange : r.SameRange sol₁.x) :
    (∀ sol₂, solve env (r.continuing n₂ sol₁.x sol₁.y) = .ok sol₂ →
        sol₂.x = sol.x ∧ sol₂.y = sol.y)
      ∧ ((∀ f ∈ r.callback, ∀ k x, f k x = .ok ()) →
        ∃ sol₂, solve env (r.continuing n₂ sol₁.x sol₁.y) = .ok sol₂) := by
  obtain ⟨ready, legs, records, hready, hlegs, hrecords, rfl⟩ := solve_ok h
  obtain ⟨ready₁, legs₁, records₁, hready₁, hlegs₁, -, hsol₁⟩ := solve_ok h₁
  cases (prepare_restarting (r := r.restarting (n₁ + n₂)) hready hn₁).symm.trans hready₁
  have hsum : (r.restarting (n₁ + n₂)).nIter.toNat = n₁.toNat + n₂.toNat :=
    Int.toNat_add (by omega) (by omega)
  rw [hsum] at hlegs
  obtain ⟨hfirst, hrest⟩ := Schedule.course_split hlegs
  cases hfirst.symm.trans hlegs₁
  -- The estimates after the first restarts, and the restarts that follow them.
  obtain ⟨mid, hmid⟩ : ∃ mid, mid = Leg.last ready.start (legs.take n₁.toNat) := ⟨_, rfl⟩
  have hlast : Leg.last ready.start legs = Leg.last mid (legs.drop n₁.toNat) := by
    rw [hmid, ← Leg.last_append, List.take_append_drop]
  rw [← hmid] at hrest hsol₁
  have hx : sol₁.x = Tensor.scale ready.schedule.scale mid.psi := by
    rw [hsol₁]
    rfl
  have hy : sol₁.y = Tensor.scale ready.schedule.scale mid.y := by
    rw [hsol₁]
    rfl
  obtain ⟨hK, hb, hstart⟩ := prepare_vectors hready
  have hvector : mid.y.axes = 1 := hmid ▸ Schedule.course_vectors hK hb hstart hfirst
  rw [hx] at hrange
  obtain ⟨eps, hwarm⟩ :=
    prepare_continuing (r := r.restarting (n₁ + n₂)) hready hL hn₂ hvector hrange
  obtain ⟨-, -, hcalled, ⟨_, hoptions⟩, -⟩ := prepare_schedule hready
  have hplain' : ready.schedule.options.outputType = .plain := by
    rw [hoptions]
    exact hplain
  -- The start has the estimates, and a target error of its own that plain restarts do not read.
  obtain ⟨state, hstate⟩ : ∃ state : RestartState ℝ Unit 𝕜, state = ⟨mid.psi, mid.y, eps⟩ :=
    ⟨_, rfl⟩
  have hpsi₀ : state.psi = mid.psi := hstate ▸ rfl
  have hy₀ : state.y = mid.y := hstate ▸ rfl
  rw [← hstate] at hwarm
  obtain ⟨later, hlater, hsame⟩ := Schedule.course_plain hplain' hpsi₀ hy₀ hrest
  obtain ⟨hpsi, hdual⟩ := Leg.Same.last hsame hpsi₀ hy₀
  rw [← hlast] at hpsi hdual
  rw [hx, hy]
  constructor
  · intro sol₂ hsol₂
    obtain ⟨ready₂, legs₂, records₂, hready₂, hlegs₂, -, rfl⟩ := solve_ok hsol₂
    cases hwarm.symm.trans hready₂
    cases hlater.symm.trans hlegs₂
    exact ⟨congrArg (Tensor.scale _) hpsi, congrArg (Tensor.scale _) hdual⟩
  · intro hcallback
    have hrecords' : ready.schedule.records 0 later = .ok (records.drop n₁.toNat) := by
      rw [Schedule.records_same (by rw [hcalled]; exact hcallback) hsame (0 + n₁.toNat) 0]
      exact Schedule.records_drop hrecords n₁.toNat
    exact ⟨_, solve_of_course henv hwarm hlater hrecords'⟩

end Solver

end PrimalDual
