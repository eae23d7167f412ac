/-
  PrimalDual.Proofs.Run.Rescaled
  ──────────────────────────────
  **RESCALED REQUESTS.**

  Two requests that differ in the unit of their data — measurements, starts,
  tolerance and noise level, all multiplied by `c` — are made ready as the
  same problem (`prepare_rescaled`).  Only the factor that leads back to the
  caller's units differs, and the restarts never read it (`course_inScale`).
  So the two runs have one course, and whatever leaves them differs by the
  factor `c`: the solution, the recorded iterates, the arguments of the
  observers and the target errors (`Solver.rescaling_invariant`).

  Before the division by `‖b‖` the operators see data in the caller's units,
  and after it the observers do.  What they return there may depend on the
  values; whether they return, and in which shape, must not (`ValueBlind`).
-/
import PrimalDual.Proofs.Run.Returns
import PrimalDual.Proofs.Run.Watch

namespace PrimalDual

open Tensor

variable {𝕜 : Type} [RCLike 𝕜]

/-! ## §1. Requests in another unit. -/

/-- The shapes that an operator returns, and whether it returns, do not depend on values. -/
structure Operator.ValueBlind (op : Operator (Except (Failure ℝ)) ℝ Unit 𝕜) : Prop where
  forward : ∀ x x', x'.shape = x.shape → ∀ u, op.forward x = .ok u →
    ∃ u', op.forward x' = .ok u' ∧ u'.shape = u.shape
  adjoint : ∀ y y', y'.shape = y.shape → ∀ u, op.adjoint y = .ok u →
    ∃ u', op.adjoint y' = .ok u' ∧ u'.shape = u.shape

/-- Reshaping looks at nothing but the shape. -/
theorem Tensor.reshape_of_shape {κ α R : Type} {x x' z : Tensor κ α} (hshape : x'.shape = x.shape)
    {s : List ℤ} (h : (x.reshape s : Except (Failure R) _) = .ok z) :
    ∃ z', (x'.reshape s : Except (Failure R) _) = .ok z' ∧ z'.shape = z.shape := by
  have hsize : x'.size = x.size := by rw [size_eq, size_eq, hshape]
  obtain ⟨t, ht, hinfer, rfl⟩ := reshape_eq_ok.1 h
  exact ⟨_, reshape_eq_ok.2 ⟨t, ht.trans hsize.symm, by rw [hsize, hinfer], rfl⟩, rfl⟩

/-- An operator that looks at shapes only still does when it is flattened. -/
theorem Operator.ValueBlind.flattened {op : Operator (Except (Failure ℝ)) ℝ Unit 𝕜}
    (h : op.ValueBlind) (s : List ℤ) : (Operator.flattened op s).ValueBlind where
  forward x x' hx u hu := by
    obtain ⟨v, hv, hu⟩ := bind_eq_ok.1 hu
    cases hu
    obtain ⟨v', hv', hshape⟩ := h.forward x x' hx v hv
    refine ⟨v'.flatten, bind_returns hv' rfl, ?_⟩
    rw [shape_flatten, shape_flatten, size_eq, size_eq, hshape]
  adjoint y y' hy u hu := by
    obtain ⟨v, hv, hu⟩ := bind_eq_ok.1 hu
    obtain ⟨v', hv', hshape⟩ := reshape_of_shape hy hv
    obtain ⟨u', hu', hshape'⟩ := h.adjoint v v' hshape u hu
    exact ⟨u', bind_returns hv' hu', hshape'⟩

/-- Whether the observers return does not depend on values. -/
structure Observer.ValueBlind (o : Observer (Except (Failure ℝ)) ℝ Unit 𝕜) : Prop where
  error : ∀ f ∈ o.error, ∀ x x', x'.shape = x.shape → ∀ e, f x = .ok e → ∃ e', f x' = .ok e'
  callback : ∀ f ∈ o.callback, ∀ k x x', x'.shape = x.shape → f k x = .ok () → f k x' = .ok ()

/-- The maps of a request, except its proximal map, do not depend on values in what they
accept and in the shapes that they return. -/
structure Request.ValueBlind (r : Request (Except (Failure ℝ)) ℝ Unit 𝕜) : Prop where
  A : ∀ op, r.A.toOperator = .ok op → op.ValueBlind
  analysis : ∀ B ∈ r.options.analysis, ∀ op, B.toOperator = .ok op → op.ValueBlind
  error : ∀ f ∈ r.options.error, ∀ x x', x'.shape = x.shape → ∀ e, f x = .ok e →
    ∃ e', f x' = .ok e'
  callback : ∀ f ∈ r.callback, ∀ k x x', x'.shape = x.shape → f k x = .ok () → f k x' = .ok ()

/-- The request with all of its data multiplied by `c`. -/
noncomputable def Request.rescaled (c : ℝ) (r : Request (Except (Failure ℝ)) ℝ Unit 𝕜) :
    Request (Except (Failure ℝ)) ℝ Unit 𝕜 :=
  { r with
    b := Tensor.scale c r.b
    epsilon := c * r.epsilon
    delta := c * r.delta
    x0 := r.x0.map (Tensor.scale c)
    y0 := r.y0.map (Tensor.scale c) }

/-- The call with its argument multiplied by `c`. -/
noncomputable def Call.rescaled (c : ℝ) : Call Unit 𝕜 → Call Unit 𝕜
  | .measured x => .measured (Tensor.scale c x)
  | .shown k x => .shown k (Tensor.scale c x)

/-- The schedule with another factor to the caller's units. -/
def Schedule.inScale (s : Schedule (Except (Failure ℝ)) ℝ Unit 𝕜) (scale : ℝ) :
    Schedule (Except (Failure ℝ)) ℝ Unit 𝕜 :=
  { s with scale := scale }

/-! ## §2. Preparation. -/

namespace Solver

variable {env : Environment (Except (Failure ℝ)) ℝ Unit 𝕜}
variable {r : Request (Except (Failure ℝ)) ℝ Unit 𝕜} {c : ℝ}

/-- A request that passes its checks passes them in another unit. -/
theorem checkRequest_rescaled (hc : 0 < c) (h : checkRequest r = .ok ()) :
    checkRequest (r.rescaled c) = .ok () := by
  -- A positive factor does not change a sign.
  have hsign : ∀ a : ℝ, Control.lt (c * a) Control.zero = Control.lt a Control.zero := by
    intro a
    rw [Control.lt_real, Control.lt_real, Control.zero_real, decide_eq_decide]
    constructor
    · intro ha
      exact neg_of_mul_neg_right ha hc.le
    · intro ha
      exact mul_neg_of_pos_of_neg hc ha
  unfold checkRequest at h ⊢
  obtain ⟨hcounts, h⟩ := guard_ok h
  obtain ⟨hsigns, -⟩ := guard_ok h
  have hcounts' : (decide ((r.rescaled c).nIter < 1) || decide ((r.rescaled c).kIter < 1))
      = false := hcounts
  rw [hcounts']
  show (if (Control.lt (c * r.epsilon) Control.zero || Control.lt (c * r.delta) Control.zero) = true
    then _ else _) = _
  rw [hsign, hsign, hsigns]
  rfl

/-- The start of the primal estimate is taken in the other unit. -/
theorem primalStart_rescaled {K : Operator (Except (Failure ℝ)) ℝ Unit 𝕜}
    (hK : K.ValueBlind) {b x : Tensor Unit 𝕜} {x0 : Option (Tensor Unit 𝕜)}
    (h : primalStart K b x0 = .ok x) :
    primalStart K (Tensor.scale c b) (x0.map (Tensor.scale c)) = .ok (Tensor.scale c x) := by
  cases x0 with
  | some x0 =>
    cases h
    rfl
  | none =>
    obtain ⟨u, hu, h⟩ := bind_eq_ok.1 h
    cases h
    obtain ⟨u', hu', hshape⟩ := hK.adjoint b (Tensor.scale c b) rfl u hu
    apply bind_returns hu'
    unfold zerosLike
    rw [hshape, scale_zeros]
    rfl

/-- The stacked operator is the same in another unit. -/
theorem stackAnalysis_rescaled {K : Operator (Except (Failure ℝ)) ℝ Unit 𝕜} {b x : Tensor Unit 𝕜}
    {n q : ℕ} (hb : b.shape = [n]) {analysis : Option (Representation (Except (Failure ℝ)) ℝ Unit 𝕜)}
    (hB : ∀ B ∈ analysis, ∀ op, B.toOperator = .ok op → op.ValueBlind)
    {stacked : Operator (Except (Failure ℝ)) ℝ Unit 𝕜 × Tensor Unit 𝕜}
    (h : stackAnalysis K b x q analysis = .ok stacked) :
    stackAnalysis K (Tensor.scale c b) (Tensor.scale c x) q analysis
      = .ok (stacked.1, Tensor.scale c stacked.2) := by
  cases analysis with
  | none =>
    cases h
    rfl
  | some B =>
    obtain ⟨op, image, hop, himage, hstack, happend⟩ := stackAnalysis_eq_ok.1 h
    obtain ⟨image', himage', hshape⟩ := (hB B rfl op hop).forward x (Tensor.scale c x) rfl image himage
    refine stackAnalysis_eq_ok.2 ⟨op, image', hop, himage', ?_, ?_⟩
    · rw [hshape]
      exact hstack
    · have hzeros : (Tensor.zeros () [q] : Tensor Unit 𝕜).shape = [q] := rfl
      have hjoined := append_scale c hb hzeros
      rw [scale_zeros, show (Tensor.zeros () [q] : Tensor Unit 𝕜) = Tensor.zeros b.kind [q] from rfl,
        happend] at hjoined
      exact hjoined

/-- **A request in another unit is made ready as the same problem.** -/
theorem prepare_rescaled (hc : 0 < c) (hr : r.ValueBlind)
    {ready : Prepared (Except (Failure ℝ)) ℝ Unit 𝕜} (h : prepare env r = .ok ready) :
    prepare env (r.rescaled c)
      = .ok ⟨ready.schedule.inScale (c * ready.schedule.scale), ready.start⟩ := by
  obtain ⟨K, x0, ⟨K', b'⟩, o, hcheck, hK, hx0, hstacked, ho, hready⟩ := prepare_eq_ok.1 h
  obtain ⟨scale, epsilon, delta, length, hscale, hzero, hepsilon, hdelta, hlength, rfl⟩ :=
    normalise_eq_ok.1 hready
  -- The operator of the measurements depends on the shape of `b` only.
  have hK' : measurement (r.rescaled c) = .ok K := hK
  have hKblind : K.ValueBlind := by
    obtain ⟨op, hop, hK⟩ := bind_eq_ok.1 hK
    cases hK
    exact (hr.A op hop).flattened _
  have hx0' : primalStart K (r.rescaled c).b.flatten (r.rescaled c).x0
      = .ok (Tensor.scale c x0) := by
    have h := primalStart_rescaled (c := c) hKblind hx0
    rwa [← flatten_scale] at h
  have hstacked' : stackAnalysis K (r.rescaled c).b.flatten (Tensor.scale c x0) r.options.q
      r.options.analysis = .ok (K', Tensor.scale c b') := by
    have h := stackAnalysis_rescaled (c := c) (shape_flatten r.b) hr.analysis hstacked
    rwa [← flatten_scale] at h
  have hy0 : ((r.rescaled c).y0.getD (Tensor.scale c b').zerosLike).flatten
      = Tensor.scale c (r.y0.getD b'.zerosLike).flatten := by
    rw [← flatten_scale]
    show ((r.y0.map (Tensor.scale c)).getD (Tensor.scale c b').zerosLike).flatten = _
    cases r.y0 with
    | some y => rfl
    | none =>
      rw [Option.map_none, Option.getD_none, Option.getD_none]
      exact congrArg Tensor.flatten (scale_zeros c _).symm
  have hscale' : (Tensor.scale c b').normValue = .ok (c * scale) := by
    rw [normValue_scale hc.le, hscale]
    rfl
  have hnonzero : scale ≠ 0 := by
    rw [Control.eq_real, Control.zero_real, decide_eq_false_iff_not] at hzero
    exact hzero
  have hquotient : ∀ a, Control.quotient (c * a) (c * scale) = Control.quotient a scale := by
    intro a
    rw [Control.quotient_real _ hnonzero, Control.quotient_real _ (mul_ne_zero hc.ne' hnonzero),
      mul_div_mul_left _ _ hc.ne']
  have hdivided : ∀ x : Tensor Unit 𝕜, (Tensor.scale c x).divBy (c * scale) = x.divBy scale :=
    fun x => divBy_scale hc.ne' x scale
  have hcheck' := checkRequest_rescaled hc hcheck
  rw [prepare_eq_ok]
  refine ⟨K, Tensor.scale c x0, (K', Tensor.scale c b'), o, hcheck', hK', hx0', hstacked', ho, ?_⟩
  rw [normalise_eq_ok]
  refine ⟨c * scale, epsilon, delta, length, hscale', ?_, (hquotient _).trans hepsilon,
    (hquotient _).trans hdelta, ?_, ?_⟩
  · rw [Control.eq_real, Control.zero_real, decide_eq_false_iff_not]
    exact mul_ne_zero hc.ne' hnonzero
  · rw [hdivided]
    exact hlength
  · unfold inUnits
    rw [hdivided, hdivided, hy0, hdivided]
    rfl

end Solver

/-! ## §3. Records. -/

namespace Observer

variable {o : Observer (Except (Failure ℝ)) ℝ Unit 𝕜} {c : ℝ}

/-- The observer with another factor to the caller's units. -/
def inScale (o : Observer (Except (Failure ℝ)) ℝ Unit 𝕜) (scale : ℝ) :
    Observer (Except (Failure ℝ)) ℝ Unit 𝕜 :=
  { o with scale := scale }

/-- In another unit the same snapshots are recorded. -/
theorem observe_inScale (ho : o.ValueBlind) (scale : ℝ) {k : ℕ} {s : Iterate Unit 𝕜}
    {record : Record ℝ Unit 𝕜} (h : o.observe k s = .ok record) :
    ∃ record', (o.inScale scale).observe k s = .ok record'
      ∧ record'.snapshot = record.snapshot := by
  obtain ⟨hmeasured, hpresented, hsnapshot⟩ := observe_ok h
  -- What the observers accept in one unit they accept in the other.
  have hmeasured' : ∃ e', (o.inScale scale).measured k s = .ok e' := by
    cases hf : o.error with
    | none => exact ⟨none, measured_none hf⟩
    | some f =>
      rw [measured_some hf] at hmeasured
      obtain ⟨value, hvalue, -⟩ := map_eq_ok.1 hmeasured
      obtain ⟨value', hvalue'⟩ := ho.error f hf (Tensor.scale o.scale (o.snapshot k s))
        (Tensor.scale scale (o.snapshot k s)) rfl value hvalue
      rw [measured_some (o := o.inScale scale) hf]
      exact ⟨some value', map_eq_ok.2 ⟨value', hvalue', rfl⟩⟩
  have hpresented' : (o.inScale scale).presented k s = .ok () := by
    cases hf : o.callback with
    | none => exact presented_none hf
    | some f =>
      rw [presented_some hf] at hpresented
      rw [presented_some (o := o.inScale scale) hf]
      exact ho.callback f hf (o.offset + k) (o.shown s) ((o.inScale scale).shown s) rfl hpresented
  obtain ⟨e', he'⟩ := hmeasured'
  exact ⟨_, observe_of_parts he' hpresented', hsnapshot.symm⟩

theorem recordsAlong_inScale (ho : o.ValueBlind) (scale : ℝ) {path : List (Iterate Unit 𝕜)}
    {k : ℕ} {records : List (Record ℝ Unit 𝕜)} (h : o.recordsAlong k path = .ok records) :
    ∃ records', (o.inScale scale).recordsAlong k path = .ok records'
      ∧ records'.filterMap Record.snapshot = records.filterMap Record.snapshot := by
  induction path generalizing k records with
  | nil =>
    cases h
    exact ⟨[], rfl, rfl⟩
  | cons s path ih =>
    obtain ⟨record, later, hrecord, hlater, rfl⟩ := recordsAlong_cons_ok h
    obtain ⟨record', hrecord', hsnapshot⟩ := observe_inScale ho scale hrecord
    obtain ⟨later', hlater', hsnapshots⟩ := ih hlater
    refine ⟨record' :: later', recordsAlong_cons hrecord' hlater', ?_⟩
    rw [List.filterMap_cons, List.filterMap_cons, hsnapshot, hsnapshots]

/-- The observers of a path are called with arguments in the other unit. -/
theorem callsAlong_inScale (k : ℕ) (path : List (Iterate Unit 𝕜)) :
    (o.inScale (c * o.scale)).callsAlong k path
      = (o.callsAlong k path).map (Call.rescaled c) := by
  induction path generalizing k with
  | nil => rfl
  | cons s path ih =>
    have hmeasured : Tensor.scale (c * o.scale) (o.snapshot (k + 1) s)
        = Tensor.scale c (Tensor.scale o.scale (o.snapshot (k + 1) s)) :=
      (scale_scale _ _ _).symm
    have hshown : (Tensor.scale (c * o.scale) s.x).divBy o.al
        = Tensor.scale c ((Tensor.scale o.scale s.x).divBy o.al) := by
      rw [divBy_eq_scale, divBy_eq_scale, scale_scale, scale_scale, scale_scale]
      congr 1
      ring
    have hcalls : (o.inScale (c * o.scale)).calls (k + 1) s
        = (o.calls (k + 1) s).map (Call.rescaled c) := by
      show (if o.error.isSome then [Call.measured (Tensor.scale (c * o.scale)
          (o.snapshot (k + 1) s))] else [])
        ++ (if o.callback.isSome then [Call.shown (o.offset + (k + 1 : ℕ))
          ((Tensor.scale (c * o.scale) s.x).divBy o.al)] else []) = _
      unfold calls shown
      rw [hmeasured, hshown, List.map_append]
      cases o.error.isSome <;> cases o.callback.isSome <;> rfl
    unfold callsAlong
    rw [List.map_append, hcalls, ih]

end Observer

namespace Schedule

variable {s : Schedule (Except (Failure ℝ)) ℝ Unit 𝕜} {c : ℝ}

/-- The restarts never read the factor to the caller's units. -/
theorem course_inScale (scale : ℝ) (n : ℕ) (state : RestartState ℝ Unit 𝕜) :
    (s.inScale scale).course n state = s.course n state := by
  induction n generalizing state with
  | zero => rfl
  | succ n ih =>
    unfold course
    simp only [ih]
    rfl

/-- The records of restarts in another unit. -/
theorem records_inScale (hs : ∀ al type offset, (s.observer al type offset).ValueBlind)
    {legs : List (Leg ℝ Unit 𝕜)} {j : ℕ} {records : List (RestartRecord ℝ Unit 𝕜)}
    (h : s.records j legs = .ok records) :
    ∃ records', (s.inScale (c * s.scale)).records j legs = .ok records'
      ∧ records'.map RestartRecord.iterates
        = (records.map RestartRecord.iterates).map (List.map (Tensor.scale c)) := by
  induction legs generalizing j records with
  | nil =>
    cases h
    exact ⟨[], rfl, rfl⟩
  | cons leg legs ih =>
    obtain ⟨record, later, hrecord, hlater, rfl⟩ := records_cons_ok h
    obtain ⟨along, halong, rfl⟩ := record_ok hrecord
    obtain ⟨along', halong', hsnapshots⟩ :=
      Observer.recordsAlong_inScale (hs _ _ _) (c * s.scale) halong
    obtain ⟨later', hlater', hiterates⟩ := ih hlater
    refine ⟨_ :: later', records_cons (record_of_along halong') hlater', ?_⟩
    rw [List.map_cons, List.map_cons, List.map_cons, hiterates]
    refine congrArg (· :: _) ?_
    show (along'.filterMap Record.snapshot).map (Tensor.scale (c * s.scale)) = _
    rw [hsnapshots, List.map_map]
    apply List.map_congr_left
    intro x _
    exact (scale_scale _ _ _).symm

/-- The observers of restarts are called with arguments in the other unit. -/
theorem calls_inScale (legs : List (Leg ℝ Unit 𝕜)) (j : ℕ) :
    (s.inScale (c * s.scale)).calls j legs = (s.calls j legs).map (Call.rescaled c) := by
  induction legs generalizing j with
  | nil => rfl
  | cons leg legs ih =>
    unfold calls callsOf
    rw [List.map_append, ih]
    refine congrArg (· ++ _) ?_
    exact Observer.callsAlong_inScale (o := s.observer leg.al leg.type (j * s.kIter)) 0 leg.path

end Schedule

/-- **Rescaling invariance.**  If a request is solved, so is the request with measurements,
starts, tolerance and noise level multiplied by `c`.  Solution, recorded iterates, arguments
of the observers, scale and target errors are multiplied by `c`; the options, with the bound
of the operator norm, and the rescaling factors are the same. -/
theorem Solver.rescaling_invariant {env : Environment (Except (Failure ℝ)) ℝ Unit 𝕜}
    (henv : env.Receptive) {r : Request (Except (Failure ℝ)) ℝ Unit 𝕜} (hr : r.ValueBlind)
    {c : ℝ} (hc : 0 < c) {sol : Solution (Except (Failure ℝ)) ℝ Unit 𝕜}
    (h : solve env r = .ok sol) :
    ∃ sol', solve env (r.rescaled c) = .ok sol'
      ∧ sol'.x = Tensor.scale c sol.x ∧ sol'.y = Tensor.scale c sol.y
      ∧ sol'.iterates = sol.iterates.map (List.map (Tensor.scale c))
      ∧ sol'.scale = c * sol.scale ∧ sol'.epsHistory = sol.epsHistory.map (c * ·)
      ∧ sol'.options = sol.options ∧ sol'.alHistory = sol.alHistory
      ∧ ∃ log, watch env r = .ok (sol.watched, log)
        ∧ watch env (r.rescaled c) = .ok (sol'.watched, log.map (Call.rescaled c)) := by
  obtain ⟨ready, legs, records, hready, hlegs, hrecords, rfl⟩ := solve_ok h
  have hready' := prepare_rescaled hc hr hready
  have hlegs' : (ready.schedule.inScale (c * ready.schedule.scale)).course (r.rescaled c).nIter.toNat
      ready.start = .ok legs := (Schedule.course_inScale _ _ _).trans hlegs
  obtain ⟨-, -, hcallback, ⟨bound, hoptions⟩, -⟩ := prepare_schedule hready
  have hblind : ∀ al type offset, (ready.schedule.observer al type offset).ValueBlind := by
    intro al type offset
    constructor
    · intro f hf
      refine hr.error f ?_
      rw [show (ready.schedule.observer al type offset).error = ready.schedule.options.error from rfl,
        hoptions] at hf
      exact hf
    · intro f hf
      refine hr.callback f ?_
      rw [← hcallback]
      exact hf
  obtain ⟨records', hrecords', hiterates⟩ := Schedule.records_inScale (c := c) hblind hrecords
  refine ⟨_, solve_of_course henv hready' hlegs' hrecords', ?_, ?_, ?_, rfl, ?_, rfl, rfl,
    ready.schedule.calls 0 legs, watch_of_course henv hready hlegs hrecords, ?_⟩
  · exact (scale_scale _ _ _).symm
  · exact (scale_scale _ _ _).symm
  · show (if ready.schedule.options.store then records'.map RestartRecord.iterates else [])
      = (if ready.schedule.options.store then records.map RestartRecord.iterates else []).map _
    cases ready.schedule.options.store
    · rfl
    · exact hiterates
  · show (legs.map fun leg => leg.start.eps * (c * ready.schedule.scale))
      = (legs.map fun leg => leg.start.eps * ready.schedule.scale).map (c * ·)
    rw [List.map_map]
    apply List.map_congr_left
    intro leg _
    exact mul_left_comm _ _ _
  · rw [← Schedule.calls_inScale]
    exact watch_of_course henv hready' hlegs' hrecords'

theorem Operator.ValueBlind.identity :
    (Operator.identity : Operator (Except (Failure ℝ)) ℝ Unit 𝕜).ValueBlind where
  forward _ x' hx _ hu := by
    cases hu
    exact ⟨x', rfl, hx⟩
  adjoint _ y' hy _ hu := by
    cases hu
    exact ⟨y', rfl, hy⟩

theorem unitRequest_valueBlind : unitRequest.ValueBlind where
  A op hop := by
    cases hop
    exact .identity
  analysis B hB op hop := by
    cases hB
    cases hop
    exact .identity
  error f hf _ x' _ _ _ := by
    cases hf
    exact ⟨_, normValue_eq x'⟩
  callback f hf _ _ _ _ _ := by
    cases hf
    rfl

/-- The theorem at a small request, in a unit three times as small. -/
theorem Solver.rescaling_invariant_unit :
    quietEnvironment.Receptive ∧ unitRequest.ValueBlind ∧ (0 : ℝ) < 3
      ∧ ∃ sol sol', solve quietEnvironment unitRequest = .ok sol
        ∧ solve quietEnvironment (unitRequest.rescaled 3) = .ok sol'
        ∧ sol'.x = Tensor.scale (3 : ℝ) sol.x ∧ sol'.y = Tensor.scale (3 : ℝ) sol.y
        ∧ sol'.scale = 3 * sol.scale := by
  have hpos : (0 : ℝ) < 3 := by norm_num
  obtain ⟨sol, hsol⟩ := solve_unit
  obtain ⟨sol', hsol', hx, hy, -, hscale, -⟩ :=
    rescaling_invariant quietEnvironment_receptive unitRequest_valueBlind hpos hsol
  exact ⟨quietEnvironment_receptive, unitRequest_valueBlind, hpos, sol, sol', hsol, hsol', hx, hy,
    hscale⟩

end PrimalDual
