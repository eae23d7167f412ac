/-
  PrimalDual.Proofs.Run.Cone
  ──────────────────────────
  **CONVEX CONES ARE PRESERVED.**

  Let `C` be a convex cone in the space of the tensors of a shape `D`, and let
  every value of the proximal map lie in it.  Then everything of the primal
  variable that leaves a run lies in it, wherever the run began:

      one step        the next iterate is such a value, and the sum of the
                      iterates does not contain the start
      a restart       its result is an iterate or a sum of iterates, divided
                      by positive numbers
      a run           the factors and the scale are positive, too

  The step is the only place where the proximal map is met; from there on it
  is a matter of signs, and every divisor and every factor is positive since
  the target errors stay positive.
-/
import PrimalDual.Proofs.Coordinates.Flattened
import PrimalDual.Proofs.Inner.Inversion
import PrimalDual.Proofs.Operator.Language
import PrimalDual.Proofs.Restart.Cap
import PrimalDual.Proofs.Run.Recorded
import Mathlib.Geometry.Convex.Cone.Basic

namespace PrimalDual

open Tensor

variable {𝕜 : Type} [RCLike 𝕜] {D S : List ℕ} {C : ConvexCone ℝ (Space 𝕜 D)}

/-! ## §1. Tensors of a cone. -/

namespace Tensor

/-- The tensor has the shape `D` and lies in the cone. -/
def InCone (C : ConvexCone ℝ (Space 𝕜 D)) (x : Tensor Unit 𝕜) : Prop :=
  x.shape = D ∧ vec D x ∈ C

variable {x y z : Tensor Unit 𝕜} {c : ℝ}

theorem InCone.scale (hx : x.InCone C) (hc : 0 < c) : (scale c x).InCone C := by
  have hvec : vec D (Tensor.scale c x) = c • vec D x := by
    ext i
    show (Tensor.scale c x).entry i = c • x.entry i
    rw [entry_scale, RCLike.real_smul_eq_coe_mul]
  refine ⟨(shape_scale c x).trans hx.1, ?_⟩
  rw [hvec]
  exact C.smul_mem hc hx.2

theorem InCone.divBy (hx : x.InCone C) (hc : 0 < c) : (x.divBy c).InCone C := by
  rw [divBy_eq_scale]
  exact hx.scale (inv_pos.2 hc)

theorem InCone.add (hx : x.InCone C) (hy : y.InCone C)
    (h : (x.add y : Except (Failure ℝ) _) = .ok z) : z.InCone C := by
  obtain ⟨w, hw, hwshape, hentry⟩ := add_of_shape (hx.1.trans hy.1.symm)
  cases h.symm.trans hw
  have hsize : x.size = D.prod := by rw [size_eq, hx.1]
  have hvec : vec D z = vec D x + vec D y := by
    ext i
    exact hentry i (i.isLt.trans_eq hsize.symm)
  refine ⟨hwshape.trans hx.1, ?_⟩
  rw [hvec]
  exact C.add_mem hx.2 hy.2

end Tensor

/-! ## §2. Steps. -/

/-- The iterate and the sum of all iterates lie in the cone. -/
structure Iterate.InCone (C : ConvexCone ℝ (Space 𝕜 D)) (s : Iterate Unit 𝕜) : Prop where
  x : s.x.InCone C
  xSum : s.xSum.InCone C

namespace Problem

variable {p : Problem (Except (Failure ℝ)) ℝ Unit 𝕜}

/-- The adjoint takes back to the shape `D`, and from there the proximal map to the cone. -/
structure Leads (C : ConvexCone ℝ (Space 𝕜 D)) (p : Problem (Except (Failure ℝ)) ℝ Unit 𝕜) :
    Prop where
  adjoint : ∀ y v, p.K.adjoint y = .ok v → v.shape = D
  prox : ∀ v x, v.shape = D → p.prox v p.primalStep = .ok x → x.InCone C

/-- **One step enters the cone.**  Before it nothing is summed, or the sum lies in the cone. -/
theorem advance_inCone (hp : p.Leads C) {s s' : Iterate Unit 𝕜} (hx : s.x.shape = D)
    (hsum : s.xSum = zeros () D ∨ s.xSum.InCone C) (h : p.advance s = .ok s') : s'.InCone C := by
  obtain ⟨u, v, e, image, hu, hv, hprox, -⟩ := advance_ok h
  obtain ⟨hadd, -⟩ := advance_sums h
  have hushape : (Tensor.scale p.primalStep u).shape = D := hp.adjoint s.y u hu
  obtain ⟨w, hw, hwshape, -⟩ := sub_of_shape (hx.trans hushape.symm)
  cases hv.symm.trans hw
  have hx' : s'.x.InCone C := hp.prox v s'.x (hwshape.trans hx) hprox
  refine ⟨hx', ?_⟩
  cases hsum with
  | inl hzero =>
    have hfirst : s.xSum = s'.x.zerosLike := by
      rw [hzero, ← hx'.1]
      rfl
    rw [hfirst, zerosLike_add (Stretches.refl _)] at hadd
    rw [← Except.ok.inj hadd]
    exact hx'
  | inr hcone => exact hcone.add hx' hadd

/-- All iterates of a path lie in the cone. -/
theorem path_inCone (hp : p.Leads C) {n : ℕ} {s : Iterate Unit 𝕜} {path : List (Iterate Unit 𝕜)}
    (hx : s.x.shape = D) (hsum : s.xSum = zeros () D ∨ s.xSum.InCone C)
    (h : p.path n s = .ok path) : ∀ it ∈ path, it.InCone C := by
  induction n generalizing s path with
  | zero =>
    cases h
    intro it hit
    cases hit
  | succ n ih =>
    obtain ⟨next, rest, hnext, hrest, rfl⟩ := path_succ_ok h
    have hcone := advance_inCone hp hx hsum hnext
    intro it hit
    rcases List.mem_cons.1 hit with rfl | hit
    · exact hcone
    · exact ih hcone.x.1 (Or.inr hcone.xSum) hrest it hit

end Problem

/-! ## §3. Observations. -/

/-- The tensor that an observer was given. -/
def Call.argument {κ α : Type} : Call κ α → Tensor κ α
  | .measured x => x
  | .shown _ x => x

namespace Observer

variable {o : Observer (Except (Failure ℝ)) ℝ Unit 𝕜} {s : Iterate Unit 𝕜} {k : ℕ}
variable {path : List (Iterate Unit 𝕜)}

theorem snapshot_inCone (hal : 0 < o.al) (hk : 1 ≤ k) (hs : s.InCone C) :
    (o.snapshot k s).InCone C := by
  have hcount : (0 : ℝ) < o.al * Control.ofInt k := by
    rw [Control.ofInt_real, Int.cast_natCast]
    exact mul_pos hal (Nat.cast_pos.2 hk)
  unfold snapshot
  split
  · exact hs.xSum.divBy hcount
  · exact hs.x.divBy hal

theorem shown_inCone (hal : 0 < o.al) (hscale : 0 < o.scale) (hs : s.InCone C) :
    (o.shown s).InCone C :=
  (hs.x.scale hscale).divBy hal

theorem snapshots_inCone (hal : 0 < o.al) (hpath : ∀ s ∈ path, s.InCone C) (k : ℕ) :
    ∀ x ∈ o.snapshots path k, x.InCone C := by
  intro x hx
  obtain ⟨i, hi, rfl⟩ := List.mem_mapIdx.1 hx
  exact snapshot_inCone hal (by omega) (hpath _ (List.getElem_mem hi))

/-- What the observers are given along a path lies in the cone. -/
theorem callsAlong_inCone (hal : 0 < o.al) (hscale : 0 < o.scale)
    (hpath : ∀ s ∈ path, s.InCone C) (k : ℕ) :
    ∀ call ∈ o.callsAlong k path, call.argument.InCone C := by
  induction path generalizing k with
  | nil =>
    intro call hcall
    cases hcall
  | cons s path ih =>
    obtain ⟨hs, hrest⟩ := List.forall_mem_cons.1 hpath
    intro call hcall
    rcases List.mem_append.1 hcall with hcall | hcall
    · -- The two calls for one iterate.
      unfold calls at hcall
      rcases List.mem_append.1 hcall with hcall | hcall
      · split at hcall
        · rw [List.mem_singleton.1 hcall]
          exact (snapshot_inCone hal (by omega) hs).scale hscale
        · cases hcall
      · split at hcall
        · rw [List.mem_singleton.1 hcall]
          exact shown_inCone hal hscale hs
        · cases hcall
    · exact ih hrest (k + 1) call hcall

end Observer

/-! ## §4. Restarts. -/

namespace Schedule

variable {s : Schedule (Except (Failure ℝ)) ℝ Unit 𝕜} {state : RestartState ℝ Unit 𝕜} {al : ℝ}

/-- A schedule whose restarts lead into the cone. -/
structure Leads (C : ConvexCone ℝ (Space 𝕜 D)) (s : Schedule (Except (Failure ℝ)) ℝ Unit 𝕜) :
    Prop where
  valid : s.options.Valid
  bound : ∃ L, s.options.bound = some L
  adjoint : ∀ y v, s.K.adjoint y = .ok v → v.shape = D
  prox : ∀ t, 0 < t → ∀ v x, v.shape = D → s.prox v t = .ok x → x.InCone C
  kIter_pos : 1 ≤ s.kIter
  delta_nonneg : 0 ≤ s.delta
  scale_pos : 0 < s.scale

/-- The factor of a positive target error is positive. -/
theorem rescale_pos (hs : s.Leads C) {eps : ℝ} (heps : 0 < eps)
    (h : Solver.rescale s eps = .ok al) : 0 < al := by
  unfold Solver.rescale at h
  split at h
  · rw [← Except.ok.inj h, Control.one_real]
    exact one_pos
  · obtain ⟨L, hL⟩ := hs.bound
    have herror : 0 < s.delta + eps := by linarith [hs.delta_nonneg]
    rw [Rescaling.factor_of_pos hs.valid hL hs.kIter_pos herror] at h
    rw [← Except.ok.inj h]
    exact Rescaling.min_pos_of_divisor
      (Rescaling.divisor_pos hs.valid hL hs.kIter_pos herror)

/-- **One restart**: its iterates and what it hands on lie in the cone. -/
theorem leg_inCone (hs : s.Leads C) (hal : 0 < al) (hpsi : state.psi.shape = D)
    {leg : Leg ℝ Unit 𝕜} (h : s.leg state al = .ok leg) :
    (∀ it ∈ leg.path, it.InCone C) ∧ leg.next.psi.InCone C := by
  obtain ⟨L, hL⟩ := hs.bound
  obtain ⟨step, hstep, -, hpath, -, -, hnext⟩ := leg_ok h
  have hstepPos : 0 < step := by
    rw [stepSize_eq hs.valid hL] at hstep
    rw [← Except.ok.inj hstep]
    exact div_pos hs.valid.tau_pos (hs.valid.bound_pos L hL)
  have hproblem : (s.problem al step).Leads C := ⟨hs.adjoint, hs.prox step hstepPos⟩
  have hfirst : (first state al).x.shape = D := hpsi
  have hsum : (first state al).xSum = zeros () D := by
    rw [← hfirst]
    rfl
  have hcone := Problem.path_inCone hproblem hfirst (Or.inl hsum) hpath
  refine ⟨hcone, ?_⟩
  -- There is a last iterate, as there is a step.
  have hk := hs.kIter_pos
  have hlength := length_leg h
  have hlast : leg.path.getLastD (first state al) ∈ leg.path := getLastD_mem (by omega) _
  have hcount : (0 : ℝ) < Control.ofInt s.kIter := by
    rw [Control.ofInt_real]
    exact Int.cast_pos.2 (by omega)
  rw [hnext]
  show (Tensor.divBy (if leg.type.averagesPrimal then _ else _) al).InCone C
  split
  · exact ((hcone _ hlast).xSum.divBy hcount).divBy hal
  · exact (hcone _ hlast).x.divBy hal

end Schedule

/-- A restart of which everything lies in the cone. -/
structure Leg.InCone (C : ConvexCone ℝ (Space 𝕜 D)) (leg : Leg ℝ Unit 𝕜) : Prop where
  al_pos : 0 < leg.al
  path : ∀ it ∈ leg.path, it.InCone C
  next : leg.next.psi.InCone C

namespace Schedule

variable {s : Schedule (Except (Failure ℝ)) ℝ Unit 𝕜} {legs : List (Leg ℝ Unit 𝕜)}

/-- **All restarts of a course**, wherever it begins. -/
theorem course_inCone (hs : s.Leads C) {n : ℕ} {state : RestartState ℝ Unit 𝕜}
    (hpsi : state.psi.shape = D) (heps : 0 < state.eps) (h : s.course n state = .ok legs) :
    ∀ leg ∈ legs, leg.InCone C := by
  induction n generalizing state legs with
  | zero =>
    cases h
    intro leg hleg
    cases hleg
  | succ n ih =>
    obtain ⟨al, first, later, hal, hleg, hlater, rfl⟩ := course_succ_ok h
    have hpos := rescale_pos hs heps hal
    obtain ⟨hpath, hnext⟩ := leg_inCone hs hpos hpsi hleg
    obtain ⟨step, -, -, -, -, hfactor, hhanded⟩ := leg_ok hleg
    -- The next target error is positive again, so the next factor is.
    have heps' : 0 < first.next.eps := by
      rw [hhanded]
      exact mul_pos hs.valid.upsilon_pos (by linarith [hs.delta_nonneg])
    intro leg hmem
    rcases List.mem_cons.1 hmem with rfl | hmem
    · exact ⟨hfactor ▸ hpos, hpath, hnext⟩
    · exact ih hnext.1 heps' hlater leg hmem

/-- What is stored of the restarts. -/
theorem stored_inCone (hs : s.Leads C) (hlegs : ∀ leg ∈ legs, leg.InCone C) :
    ∀ row ∈ legs.map s.stored, ∀ x ∈ row, x.InCone C := by
  intro row hrow x hx
  obtain ⟨leg, hleg, rfl⟩ := List.mem_map.1 hrow
  obtain ⟨snapshot, hsnapshot, rfl⟩ := List.mem_map.1 hx
  have hcone := hlegs leg hleg
  exact (Observer.snapshots_inCone (o := s.observer leg.al leg.type 0) hcone.al_pos hcone.path 0
    snapshot hsnapshot).scale hs.scale_pos

/-- What the observers are given in the course of the restarts. -/
theorem calls_inCone (hs : s.Leads C) (hlegs : ∀ leg ∈ legs, leg.InCone C) (j : ℕ) :
    ∀ call ∈ s.calls j legs, call.argument.InCone C := by
  induction legs generalizing j with
  | nil =>
    intro call hcall
    cases hcall
  | cons leg legs ih =>
    obtain ⟨hleg, hrest⟩ := List.forall_mem_cons.1 hlegs
    intro call hcall
    rcases List.mem_append.1 hcall with hcall | hcall
    · exact Observer.callsAlong_inCone (o := s.observer leg.al leg.type (j * s.kIter))
        hleg.al_pos hs.scale_pos hleg.path 0 call hcall
    · exact ih hrest (j + 1) call hcall

end Schedule

/-! ## §5. Requests. -/

/-- The adjoint leads what has the shape `S` back to the shape `D`. -/
def Operator.LeadsBack (D S : List ℕ) (op : Operator (Except (Failure ℝ)) ℝ Unit 𝕜) : Prop :=
  ∀ y v, y.shape = S → op.adjoint y = .ok v → v.shape = D

/-- The primal variable of the request has the shape `D`: its operators work on tensors of this
shape, and so does its start. -/
structure Request.OnShape (D : List ℕ) (r : Request (Except (Failure ℝ)) ℝ Unit 𝕜) : Prop where
  A : ∀ K, r.A.toOperator = .ok K → K.LeadsBack D r.b.shape
  analysis : ∀ B ∈ r.options.analysis, ∀ K, B.toOperator = .ok K →
    ∀ x u, x.shape = D → K.forward x = .ok u → K.LeadsBack D u.shape
  x0 : ∀ x ∈ r.x0, x.shape = D

namespace Operator

variable {op A B : Operator (Except (Failure ℝ)) ℝ Unit 𝕜}

/-- Read as vectors, whatever is taken back is read in the shape of the range before. -/
theorem shape_adjoint_flattened (hop : op.LeadsBack D S) (y v : Tensor Unit 𝕜)
    (h : (flattened op (S.map Int.ofNat)).adjoint y = .ok v) : v.shape = D := by
  obtain ⟨w, hw, h⟩ := bind_eq_ok.1 h
  exact hop w v (shape_of_reshape hw) h

theorem shape_adjoint_stacked {q : ℕ} (hA : ∀ y v, A.adjoint y = .ok v → v.shape = D)
    (hB : ∀ y v, B.adjoint y = .ok v → v.shape = D) (y v : Tensor Unit 𝕜)
    (h : (stacked A B (.whole q)).adjoint y = .ok v) : v.shape = D := by
  obtain ⟨cut, y₁, a, y₂, b, -, -, ha, -, hb, h⟩ := adjoint_stacked_ok h
  have hashape := hA y₁ a ha
  obtain ⟨z, hz, hzshape, -⟩ := add_of_shape (hashape.trans (hB y₂ b hb).symm)
  cases hz.symm.trans h
  exact hzshape.trans hashape

end Operator

namespace Solver

variable {env : Environment (Except (Failure ℝ)) ℝ Unit 𝕜}
variable {r : Request (Except (Failure ℝ)) ℝ Unit 𝕜}

/-- **A prepared problem leads into the cone.** -/
theorem prepare_leads {settings : Settings (Except (Failure ℝ)) ℝ Unit 𝕜}
    (hsettings : settings.check = .ok r.options) (hr : r.OnShape D)
    (hprox : ∀ t, 0 < t → ∀ v x, v.shape = D → r.prox v t = .ok x → x.InCone C)
    {ready : Prepared (Except (Failure ℝ)) ℝ Unit 𝕜} (h : prepare env r = .ok ready) :
    ready.schedule.Leads C ∧ ready.start.psi.shape = D ∧ 0 < ready.start.eps := by
  have hvalid := settings.check_valid hsettings
  obtain ⟨-, hscale, -, hdelta, -, hnoise, heps⟩ := prepare_units h
  obtain ⟨-, hk⟩ := prepare_counts h
  obtain ⟨K, x0, stacked, o, -, hK, hx0, hstacked, ho, hready⟩ := prepare_eq_ok.1 h
  obtain ⟨hvalid', L, hbound, -⟩ := ensureBound_valid hvalid ho
  -- Both the measurements and the primal start lead back to the shape.
  obtain ⟨op, hop, hK⟩ := bind_eq_ok.1 hK
  cases hK
  have hmeasured : ∀ y v, (Operator.flattened op (r.b.shape.map Int.ofNat)).adjoint y = .ok v →
      v.shape = D := Operator.shape_adjoint_flattened (hr.A op hop)
  have hx0shape : x0.shape = D := by
    cases hstart : r.x0 with
    | some x =>
      rw [hstart] at hx0
      cases hx0
      exact hr.x0 x0 hstart
    | none =>
      rw [hstart] at hx0
      obtain ⟨v, hv, hx0⟩ := bind_eq_ok.1 hx0
      cases hx0
      exact hmeasured _ v hv
  have hadjoint : ∀ y v, stacked.1.adjoint y = .ok v → v.shape = D := by
    cases hanalysis : r.options.analysis with
    | none =>
      rw [hanalysis] at hstacked
      cases hstacked
      exact hmeasured
    | some analysis =>
      rw [hanalysis] at hstacked
      obtain ⟨B, image, hB, himage, hstack, -⟩ := stackAnalysis_eq_ok.1 hstacked
      rw [Operator.stack_ok hstack]
      exact Operator.shape_adjoint_stacked hmeasured (Operator.shape_adjoint_flattened
        (hr.analysis analysis hanalysis B hB x0 image hx0shape himage))
  obtain ⟨scale, epsilon, delta, length, -, -, -, -, -, rfl⟩ := normalise_eq_ok.1 hready
  refine ⟨⟨hvalid', ⟨L, congrArg Options.bound hbound⟩, hadjoint, hprox, hk, ?_, hscale⟩,
    hx0shape, ?_⟩
  · rw [hnoise]
    exact div_nonneg hdelta hscale.le
  · rw [heps]
    exact hvalid.C2_pos

end Solver

/-! ## §6. The nonnegative orthant. -/

/-- The vectors without negative entries. -/
def orthant (D : List ℕ) : ConvexCone ℝ (Space ℝ D) where
  carrier := {v | ∀ i, 0 ≤ v i}
  smul_mem' _ hc _ hv i := mul_nonneg hc.le (hv i)
  add_mem' _ hu _ hv i := add_nonneg (hu i) (hv i)

/-- The projection on the orthant leads into it. -/
theorem nonnegative_inCone {v x : Tensor Unit ℝ} {t : ℝ} (hv : v.shape = D)
    (h : Regulariser.prox .nonnegative v t = .ok x) : x.InCone (orthant D) := by
  obtain ⟨z, hz, hzshape, hzentry⟩ := atLeast_zero_ok v
  cases hz.symm.trans h
  refine ⟨hzshape.trans hv, ?_⟩
  intro i
  show 0 ≤ x.entry i
  rw [hzentry]
  exact le_max_left _ _

/-- The small request with the orthant for its regulariser, from a start outside the orthant. -/
noncomputable def orthantRequest : Request (Except (Failure ℝ)) ℝ Unit ℝ :=
  { unitRequest with
    prox := Regulariser.prox .nonnegative
    x0 := some (ofVec [1] (single (-3))) }

/-- The regulariser and the start are the only differences to the small request. -/
theorem orthantRequest_linear :
    orthantRequest.Linear (.id ℝ (Space ℝ [1])) (.id ℝ (Space ℝ [1])) :=
  { unitRequest_linear with
    x0 := by
      rintro _ ⟨⟩
      rfl
    prox := by
      intro t v
      obtain ⟨z, hz, hzshape, -⟩ := atLeast_zero_ok (ofVec [1] v)
      have hvec : ofVec [1] (vec [1] z) = z := ofVec_vec hzshape
      refine ⟨vec [1] z, ?_⟩
      rw [hvec]
      exact hz }

theorem solve_orthant : ∃ sol, Solver.solve quietEnvironment orthantRequest = .ok sol :=
  orthantRequest_linear.solve_returns quietEnvironment_receptive

theorem orthantRequest_onShape : orthantRequest.OnShape [1] where
  A K hK := by
    cases hK
    exact Operator.identity_hasShapes.adjoint
  analysis B hB K hK x u hx hu := by
    cases hB
    cases hK
    cases hu
    rw [hx]
    exact Operator.identity_hasShapes.adjoint
  x0 x hx := by
    cases hx
    rfl

/-! ## §7. The whole run. -/

namespace Solver

variable {env : Environment (Except (Failure ℝ)) ℝ Unit 𝕜}
variable {r : Request (Except (Failure ℝ)) ℝ Unit 𝕜}

/-- **Convex cones are preserved.**  If every value of the proximal map for a positive step lies
in a convex cone, then whenever a run returns, its solution, all recorded iterates and all
arguments of the error measure and of the callback lie in it.  Nothing is asked of the starts but
the shape of the primal one. -/
theorem cone_preserved {settings : Settings (Except (Failure ℝ)) ℝ Unit 𝕜}
    (hsettings : settings.check = .ok r.options) (hr : r.OnShape D)
    (C : ConvexCone ℝ (Space 𝕜 D))
    (hprox : ∀ t, 0 < t → ∀ v x, v.shape = D → r.prox v t = .ok x → x.InCone C)
    {sol : Solution (Except (Failure ℝ)) ℝ Unit 𝕜} (h : solve env r = .ok sol) :
    sol.x.InCone C ∧ (∀ row ∈ sol.iterates, ∀ x ∈ row, x.InCone C)
      ∧ ∃ log, watch env r = .ok (sol.watched, log)
        ∧ ∀ call ∈ log, call.argument.InCone C := by
  have hwatch := watch_eq env r
  rw [h] at hwatch
  obtain ⟨ready, legs, records, hready, hlegs, hrecords, rfl⟩ := solve_ok h
  obtain ⟨hs, hpsi, heps⟩ := prepare_leads hsettings hr hprox hready
  have hcone := Schedule.course_inCone hs hpsi heps hlegs
  refine ⟨?_, ?_, ready.schedule.calls 0 legs, ?_, Schedule.calls_inCone hs hcone 0⟩
  · -- There is a last restart, as there is one.
    obtain ⟨hn, -⟩ := prepare_counts hready
    have hlength := Schedule.length_course hlegs
    have hmem : Leg.last ready.start legs ∈ legs.map Leg.next := by
      apply getLastD_mem
      rw [List.length_map]
      omega
    obtain ⟨final, hfinal, hlast⟩ := List.mem_map.1 hmem
    show (Tensor.scale _ (Leg.last ready.start legs).psi).InCone C
    rw [← hlast]
    exact (hcone final hfinal).next.scale hs.scale_pos
  · intro row hrow
    change row ∈ (if ready.schedule.options.store then records.map RestartRecord.iterates
      else []) at hrow
    split at hrow
    · rename_i hstore
      rw [Schedule.records_iterates hstore hrecords] at hrow
      exact Schedule.stored_inCone hs hcone row hrow
    · cases hrow
  · rw [hwatch]
    apply bind_returns rfl
    apply bind_returns hready
    apply bind_returns hlegs
    rfl

/-- A run from outside the orthant. -/
theorem cone_preserved_orthant :
    orthantRequest.options.settings.check = .ok orthantRequest.options
    ∧ orthantRequest.OnShape [1] ∧ ¬ (ofVec [1] (single (-3))).InCone (orthant [1])
    ∧ ∃ sol log, solve quietEnvironment orthantRequest = .ok sol ∧ sol.x.InCone (orthant [1])
      ∧ (∀ row ∈ sol.iterates, ∀ x ∈ row, x.InCone (orthant [1]))
      ∧ watch quietEnvironment orthantRequest = .ok (sol.watched, log)
      ∧ ∀ call ∈ log, call.argument.InCone (orthant [1]) := by
  have hoptions : orthantRequest.options.settings.check = .ok orthantRequest.options :=
    unitRequest_check
  have houtside : ¬ (ofVec [1] (single (-3))).InCone (orthant [1]) := by
    rintro ⟨-, hstart⟩
    rw [vec_ofVec] at hstart
    have hentry : (0 : ℝ) ≤ -3 := hstart ⟨0, by decide⟩
    norm_num at hentry
  obtain ⟨sol, hsol⟩ := solve_orthant
  obtain ⟨hx, hiterates, log, hlog, hcalls⟩ := cone_preserved hoptions orthantRequest_onShape
    (orthant [1]) (fun t _ v x hv hx => nonnegative_inCone (t := t) hv hx) hsol
  exact ⟨hoptions, orthantRequest_onShape, houtside, sol, log, hsol, hx, hiterates, hlog, hcalls⟩

end Solver

end PrimalDual
