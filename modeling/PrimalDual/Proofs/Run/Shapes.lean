/-
  PrimalDual.Proofs.Run.Shapes
  ────────────────────────────
  **THE SHAPES OF WHAT A RUN RETURNS.**

  The solver compares no shapes.  What keeps them together is that the
  estimates are added to images of one another, and an addition stretches
  axes of length 1 before it refuses anything.  In a step from a primal
  iterate of shape `X` three shapes meet (`Operator.Meets`):

      S    the shape that the adjoint makes of `n` dual entries
      D    the common shape of `X` and `S`, in which the step ends
      M    the number of entries that the operator makes of shape `D`

  The adjoint takes `n` entries only, `n` being the measurements with the
  analysis block.  So the dual iterate has `n` entries wherever another step
  follows, and the next step meets the same shapes, from `D` instead of `X`.
  All of a run therefore has the shapes of its first step (`path_shapes`,
  `leg_shapes`, `course_shapes`):

      x, and all that is recorded    shape `D`
      y                              `n` entries, or `M` where `n` is 1

  `D` is the shape of the start only if `S` stretches to it.  A start with an
  axis of length 1 too few or too many is not refused but stretched, and so
  are the measurements of an operator that takes them in any shape
  (`stretched_start_accepted`).  With a single measurement the last step may
  leave a dual iterate of another length, which no step is left to refuse.

  The proximal map is asked for nothing but to keep `D`: weights that stretch
  to `D` will do, though they would stretch a smaller argument
  (`keepsShape_weightedL1`).
-/
import PrimalDual.Proofs.Coordinates.Solve
import PrimalDual.Proofs.Inner.Inversion
import PrimalDual.Proofs.Operator.ImageShape
import PrimalDual.Proofs.Run.Causality
import PrimalDual.Proofs.Run.Recorded
import PrimalDual.Proofs.Run.Targets

namespace PrimalDual

open Tensor

variable {R κ α : Type}

/-! ## §1. The shapes that meet in a step. -/

namespace Tensor

/-- Vectors that were stretched to one another are not stretched any further. -/
theorem commonLength_again {a b : ℕ} (h : Fits a b) :
    commonLength (commonLength a b) a = commonLength a b
      ∧ commonLength a (commonLength a b) = commonLength a b := by
  have hfits : a = b ∨ a = 1 ∨ b = 1 := h
  unfold commonLength
  split_ifs <;> omega

end Tensor

variable [Control R] [Kinds κ] [Entry α R κ]

namespace Operator

variable {K op A B : Operator (Except (Failure R)) R κ α} {n M M' : ℕ}
  {X S S' D D' : List ℕ}

/-- The operator makes vectors, its adjoint takes those of `n` entries only, and neither reads an
entry for a shape. -/
structure Measures (K : Operator (Except (Failure R)) R κ α) (n : ℕ) : Prop where
  determined : ShapesImages K.forward ∧ ShapesImages K.adjoint
  vectors : K.GivesVectors
  takes : ∀ y u, K.adjoint y = .ok u → y.size = n

/-- The shapes that meet in a step from shape `X` with a dual iterate of `n` entries. -/
structure Meets (K : Operator (Except (Failure R)) R κ α) (n : ℕ) (X S D : List ℕ) (M : ℕ) :
    Prop where
  back : Sends K.adjoint [n] S
  common : stretch X S = some D
  forth : Sends K.forward D [M]
  fits : Fits n M

/-- What meets is determined by where the step begins. -/
theorem Meets.unique (h : K.Meets n X S D M) (h' : K.Meets n X S' D' M') (hK : K.Measures n) :
    S' = S ∧ D' = D ∧ M' = M := by
  obtain rfl : S' = S := hK.determined.2 h'.back h.back
  obtain rfl : D' = D := Option.some.inj (h'.common.symm.trans h.common)
  exact ⟨rfl, rfl, List.singleton_inj.1 (hK.determined.1 h'.forth h.forth)⟩

/-- The same shapes meet in the next step. -/
theorem Meets.again (h : K.Meets n X S D M) : K.Meets n D S D M where
  back := h.back
  common := by
    rw [stretch_comm]
    exact stretch_of_stretches (stretches_of_stretch h.common).2
  forth := h.forth
  fits := h.fits

/-- A step ends in the shape in which it began if the adjoint's shape stretches to it. -/
theorem Meets.eq_iff (h : K.Meets n X S D M) : D = X ↔ Stretches S X := by
  constructor
  · rintro rfl
    exact (stretches_of_stretch h.common).2
  · intro hS
    have hcommon := h.common
    rw [stretch_comm, stretch_of_stretches hS] at hcommon
    exact (Option.some.inj hcommon).symm

/-- The adjoint of a flattened operator gives its argument the stated shape. -/
theorem sends_flattened_adjoint {s t u : List ℕ}
    (h : Sends (flattened op (s.map Int.ofNat)).adjoint t u) :
    s.prod = t.prod ∧ Sends op.adjoint s u := by
  obtain ⟨y, w, rfl, hw, rfl⟩ := h
  obtain ⟨z, hz, hw⟩ := bind_eq_ok.1 hw
  have hsize : z.size = y.size := by
    obtain ⟨_, _, -, rfl⟩ := reshape_eq_ok.1 hz
    rfl
  have hshape := shape_of_reshape hz
  rw [size_eq, size_eq, hshape] at hsize
  exact ⟨hsize, sends_of_ok hshape hw⟩

theorem measures_flattened (h : op.Dependable) (s : List ℕ) :
    (flattened op (s.map Int.ofNat)).Measures s.prod where
  determined := shapesImages_flattened h.shapesImages _
  vectors := givesVectors_flattened _ _
  takes y u hu := by
    rw [size_eq, (sends_flattened_adjoint (sends_of_ok rfl hu)).1]

theorem measures_stacked {m : ℕ} (hA : A.Measures m) (hB : B.Measures n) (q : Quantity R) :
    (stacked A B q).Measures (m + n) where
  determined := shapesImages_stacked hA.determined hB.determined q
  vectors := givesVectors_stacked _ _ _
  takes y w h := by
    obtain ⟨cut, lead, u, trail, v, -, hlead, hu, htrail, hv, -⟩ := adjoint_stacked_ok h
    rw [← size_leading_add_trailing hlead htrail, hA.takes lead u hu, hB.takes trail v hv]

end Operator

/-! ## §2. Steps. -/

/-- The primal side of an iterate has shape `X`, its dual side has `k` entries. -/
structure Iterate.Shaped (X : List ℕ) (k : ℕ) (s : Iterate κ α) : Prop where
  x : s.x.shape = X
  y : s.y.shape = [k]
  xSum : s.xSum.shape = X
  ySum : s.ySum.shape = [k]

/-- The map returns shape `D` where it is given shape `D`. -/
def KeepsShape (prox : Tensor κ α → R → Except (Failure R) (Tensor κ α)) (D : List ℕ) : Prop :=
  ∀ v t x, v.shape = D → prox v t = .ok x → x.shape = D

/-- Soft thresholding with a tensor of weights keeps the shapes to which the weights stretch,
and no others. -/
theorem keepsShape_weightedL1 {w : Tensor κ α} {D : List ℕ} (hw : Stretches w.shape D) :
    KeepsShape (fun v t => Prox.weightedL1 (.each w) v (.uniform t)) D := by
  intro v t x hv hx
  obtain ⟨levels, hlevels, hx⟩ := bind_eq_ok.1 hx
  cases hlevels
  obtain ⟨ratio, hratio, hx⟩ := bind_eq_ok.1 hx
  obtain ⟨factor, hfactor, hx⟩ := bind_eq_ok.1 hx
  -- Thresholds and factors have the shape of the argument, to which the weights stretch.
  have hthresholds := shape_zipWith hratio
  have hproduct := shape_zipWith hx
  have hfactor : factor.shape = ratio.shape := by
    unfold atLeast bounded at hfactor
    split at hfactor
    · cases hfactor
    · cases hfactor
      rfl
  have hlevels : stretch w.shape v.shape = some ratio.shape := hthresholds
  rw [hv, stretch_of_stretches hw, Option.some.injEq] at hlevels
  rw [hfactor, ← hlevels, hv, stretch_self, Option.some.injEq] at hproduct
  exact hproduct.symm

/-- A problem with `n` measurements, whose proximal map keeps the shape in which a step from
shape `X` ends. -/
structure Problem.OnLength (p : Problem (Except (Failure R)) R κ α) (n : ℕ) (X : List ℕ) :
    Prop where
  K : p.K.Measures n
  b : p.b.shape = [n]
  prox : ∀ S D, Sends p.K.adjoint [n] S → stretch X S = some D → KeepsShape p.prox D

namespace Problem.OnLength

variable {p : Problem (Except (Failure R)) R κ α} {n k : ℕ} {X : List ℕ} {s next : Iterate κ α}

/-- The next step stays in the shape in which this one ends. -/
theorem again (hp : p.OnLength n X) {S D : List ℕ} {M : ℕ} (h : p.K.Meets n X S D M) :
    p.OnLength n D where
  K := hp.K
  b := hp.b
  prox := by
    intro S' D' hback hcommon
    obtain rfl : S' = S := hp.K.determined.2 hback h.back
    obtain rfl : D' = D := Option.some.inj (hcommon.symm.trans h.again.common)
    exact hp.prox _ _ h.back h.common

/-- The dual iterate after a step, from the image that is added. -/
theorem dualUpdate_shape (hp : p.OnLength n X) {y image y' : Tensor κ α} {M : ℕ}
    (hy : y.shape = [n]) (himage : image.shape = [M]) (h : p.dualUpdate y image = .ok y') :
    Fits n M ∧ y'.shape = [commonLength n M] := by
  obtain ⟨moved, hmoved, h⟩ := bind_eq_ok.1 h
  obtain ⟨residual, hresidual, h⟩ := bind_eq_ok.1 h
  have hadded := shape_zipWith hmoved
  rw [hy, shape_scale, himage] at hadded
  obtain ⟨hfits, hmoved⟩ := stretch_vectors hadded
  have hsubtracted := shape_zipWith hresidual
  rw [hmoved, shape_scale, hp.b] at hsubtracted
  obtain ⟨-, hresidual⟩ := stretch_vectors hsubtracted
  rw [Prox.shape_dual h, hresidual, (commonLength_again hfits).1]
  exact ⟨hfits, rfl⟩

/-- **One step.**  It begins with `n` dual entries, and ends in the shapes that meet in it. -/
theorem advance_shapes (hp : p.OnLength n X) (hs : s.Shaped X k) (h : p.advance s = .ok next) :
    k = n ∧ ∃ S D M, p.K.Meets n X S D M ∧ next.Shaped D (commonLength n M) := by
  obtain ⟨u, v, e, image, hu, hv, hx, he, himage, hy⟩ := advance_ok h
  obtain ⟨hxSum, hySum⟩ := advance_sums h
  obtain rfl : k = n := by rw [← size_of_vector hs.y, hp.K.takes _ _ hu]
  obtain ⟨M, hM⟩ := List.length_eq_one_iff.1 (hp.K.vectors _ _ himage)
  have hback := sends_of_ok hs.y hu
  -- The image of the dual estimate stretches the primal one, and the step keeps that shape.
  have hcommon : stretch X u.shape = some next.x.shape := by
    have hargument := shape_zipWith hv
    rw [hs.x, shape_scale] at hargument
    rw [hp.prox _ _ hback hargument v _ _ rfl hx]
    exact hargument
  have hX : Stretches X next.x.shape := (stretches_of_stretch hcommon).1
  have hkept : stretch next.x.shape X = some next.x.shape := by
    rw [stretch_comm]
    exact stretch_of_stretches hX
  have heshape : e.shape = next.x.shape := by
    have hextrapolated := shape_zipWith he
    rw [shape_scale, hs.x, hkept] at hextrapolated
    exact (Option.some.inj hextrapolated).symm
  obtain ⟨hfits, hy⟩ := hp.dualUpdate_shape hs.y hM hy
  refine ⟨rfl, u.shape, next.x.shape, M, ⟨hback, hcommon, ?_, hfits⟩, rfl, hy, ?_, ?_⟩
  · rw [← hM]
    exact sends_of_ok heshape himage
  · have hsum := shape_zipWith hxSum
    rw [hs.xSum, stretch_of_stretches hX] at hsum
    exact (Option.some.inj hsum).symm
  · have hsum := shape_zipWith hySum
    rw [hs.ySum, hy] at hsum
    obtain ⟨-, hsum⟩ := stretch_vectors hsum
    rw [hsum, (commonLength_again hfits).2]

/-- **A path keeps the shapes of its first step**, and only a last step may leave a dual iterate
of another length. -/
theorem path_shapes (hp : p.OnLength n X) {c : ℕ} (hs : s.Shaped X k) {path : List (Iterate κ α)}
    (h : p.path (c + 1) s = .ok path) :
    k = n ∧ ∃ S D M, p.K.Meets n X S D M ∧ (∀ it ∈ path, it.Shaped D (commonLength n M))
      ∧ (commonLength n M ≠ n → c = 0) := by
  induction c generalizing s k X path with
  | zero =>
    obtain ⟨next, rest, hnext, hrest, rfl⟩ := path_succ_ok h
    cases hrest
    obtain ⟨hk, S, D, M, hmeets, hshaped⟩ := hp.advance_shapes hs hnext
    exact ⟨hk, S, D, M, hmeets, List.forall_mem_singleton.2 hshaped, fun _ => rfl⟩
  | succ c ih =>
    obtain ⟨next, rest, hnext, hrest, rfl⟩ := path_succ_ok h
    obtain ⟨hk, S, D, M, hmeets, hshaped⟩ := hp.advance_shapes hs hnext
    -- The next step takes the dual iterate back, and meets the same shapes.
    obtain ⟨hm, S', D', M', hmeets', hlater, -⟩ := ih (hp.again hmeets) hshaped hrest
    obtain ⟨rfl, rfl, rfl⟩ := hmeets.again.unique hmeets' hp.K
    exact ⟨hk, S', D', M', hmeets, List.forall_mem_cons.2 ⟨hshaped, hlater⟩,
      fun hne => absurd hm hne⟩

end Problem.OnLength

/-! ## §3. Restarts. -/

/-- The primal estimate has shape `X`, the dual one has `k` entries. -/
structure RestartState.Shaped (X : List ℕ) (k : ℕ) (state : RestartState R κ α) : Prop where
  psi : state.psi.shape = X
  y : state.y.shape = [k]

namespace Schedule

variable {s : Schedule (Except (Failure R)) R κ α} {n k : ℕ} {X : List ℕ}
  {state : RestartState R κ α}

/-- **One restart** keeps the shapes of its first step. -/
theorem leg_shapes (hs : ∀ al step, (s.problem al step).OnLength n X) (hk : 1 ≤ s.kIter)
    (hstate : state.Shaped X k) {al : R} {leg : Leg R κ α} (h : s.leg state al = .ok leg) :
    k = n ∧ ∃ S D M, s.K.Meets n X S D M ∧ (∀ it ∈ leg.path, it.Shaped D (commonLength n M))
      ∧ leg.next.Shaped D (commonLength n M) ∧ (commonLength n M ≠ n → s.kIter = 1) := by
  have hlength := length_leg h
  obtain ⟨step, -, -, hpath, -, -, hnext⟩ := leg_ok h
  obtain ⟨c, hc⟩ : ∃ c, s.kIter.toNat = c + 1 := ⟨s.kIter.toNat - 1, by omega⟩
  rw [hc] at hpath
  have hfirst : (first state al).Shaped X k := ⟨hstate.psi, hstate.y, hstate.psi, hstate.y⟩
  -- All iterates are of one shape, and the last of them, or their mean, is handed on.
  obtain ⟨hkn, S, D, M, hmeets, hshaped, hlast⟩ := (hs al step).path_shapes hfirst hpath
  refine ⟨hkn, S, D, M, hmeets, hshaped, ?_, ?_⟩
  · have hfinal := hshaped _ (getLastD_mem (by omega) (first state al))
    rw [hnext]
    unfold handOn Inner.result
    constructor
    · dsimp only
      split
      · exact hfinal.xSum
      · exact hfinal.x
    · dsimp only
      split
      · exact hfinal.ySum
      · exact hfinal.y
  · intro hne
    have := hlast hne
    omega

/-- **All restarts of a course** keep the shapes of the first step of all. -/
theorem course_shapes (hs : ∀ al step, (s.problem al step).OnLength n X) (hk : 1 ≤ s.kIter)
    {c : ℕ} (hstate : state.Shaped X k) {legs : List (Leg R κ α)}
    (h : s.course (c + 1) state = .ok legs) :
    k = n ∧ ∃ S D M, s.K.Meets n X S D M
      ∧ (∀ leg ∈ legs, ∀ it ∈ leg.path, it.Shaped D (commonLength n M))
      ∧ (Leg.last state legs).Shaped D (commonLength n M)
      ∧ (commonLength n M ≠ n → c = 0 ∧ s.kIter = 1) := by
  induction c generalizing state k X legs with
  | zero =>
    obtain ⟨al, leg, later, -, hleg, hlater, rfl⟩ := course_succ_ok h
    cases hlater
    obtain ⟨hkn, S, D, M, hmeets, hpath, hnext, hone⟩ := leg_shapes hs hk hstate hleg
    exact ⟨hkn, S, D, M, hmeets, List.forall_mem_singleton.2 hpath, hnext,
      fun hne => ⟨rfl, hone hne⟩⟩
  | succ c ih =>
    obtain ⟨al, leg, later, -, hleg, hlater, rfl⟩ := course_succ_ok h
    obtain ⟨hkn, S, D, M, hmeets, hpath, hnext, -⟩ := leg_shapes hs hk hstate hleg
    obtain ⟨hm, S', D', M', hmeets', hpaths, hlast, -⟩ :=
      ih (fun al step => (hs al step).again hmeets) hnext hlater
    obtain ⟨rfl, rfl, rfl⟩ := hmeets.again.unique hmeets' (hs al al).K
    rw [Leg.last_cons]
    exact ⟨hkn, S', D', M', hmeets, List.forall_mem_cons.2 ⟨hpath, hpaths⟩, hlast,
      fun hne => absurd hm hne⟩

/-- What is stored of a restart has the shape of its primal iterates. -/
theorem shape_stored {leg : Leg R κ α} {D : List ℕ} {m : ℕ}
    (h : ∀ it ∈ leg.path, it.Shaped D m) : ∀ x ∈ s.stored leg, x.shape = D := by
  intro x hx
  obtain ⟨snapshot, hsnapshot, rfl⟩ := List.mem_map.1 hx
  obtain ⟨i, hi, rfl⟩ := List.mem_mapIdx.1 hsnapshot
  have hit := h _ (List.getElem_mem hi)
  rw [shape_scale]
  unfold Observer.snapshot
  split
  · exact hit.xSum
  · exact hit.x

end Schedule

/-! ## §4. Requests. -/

/-- The run starts in shape `D`: that of the primal start, or of `Aᴴ b` where none is given. -/
def Request.StartsIn (r : Request (Except (Failure R)) R κ α) (D : List ℕ) : Prop :=
  match r.x0 with
  | some x => x.shape = D
  | none => ∃ A, r.A.toOperator = .ok A ∧ Sends A.adjoint r.b.shape D

/-- A shape in which the steps of the run end: the common shape of its start and of what the
adjoint makes of as many dual entries as there are measurements with the analysis block. -/
def Request.StandsIn (r : Request (Except (Failure R)) R κ α)
    (env : Environment (Except (Failure R)) R κ α) (D : List ℕ) : Prop :=
  ∃ ready X S, Solver.prepare env r = .ok ready ∧ r.StartsIn X
    ∧ Sends ready.schedule.K.adjoint [r.b.size + r.options.q] S ∧ stretch X S = some D

namespace Solver

variable {env : Environment (Except (Failure R)) R κ α}
variable {r : Request (Except (Failure R)) R κ α}
variable {A K : Operator (Except (Failure R)) R κ α}

/-- The primal start of a request has a shape in which the request starts. -/
theorem primalStart_startsIn (hA : r.A.toOperator = .ok A) {x0 : Tensor κ α}
    (h : primalStart (.flattened A (r.b.shape.map Int.ofNat)) r.b.flatten r.x0 = .ok x0) :
    r.StartsIn x0.shape := by
  unfold Request.StartsIn
  unfold primalStart at h
  cases hgiven : r.x0 with
  | some x =>
    rw [hgiven] at h
    cases h
    rfl
  | none =>
    rw [hgiven] at h
    obtain ⟨w, hw, h⟩ := bind_eq_ok.1 h
    cases h
    exact ⟨A, hA, (Operator.sends_flattened_adjoint (sends_of_ok rfl hw)).2⟩

/-- With the analysis operator below it, an operator takes `q` more dual entries back, and the
measurements have as many more. -/
theorem stackAnalysis_shapes {n q : ℕ} {b x0 : Tensor κ α} (hK : K.Measures n)
    (hb : b.shape = [n]) {analysis : Option (Representation (Except (Failure R)) R κ α)}
    (hB : ∀ rep ∈ analysis, ∀ B, rep.toOperator = .ok B → B.Dependable)
    (hq : analysis = none → q = 0)
    {stacked : Operator (Except (Failure R)) R κ α × Tensor κ α}
    (h : stackAnalysis K b x0 q analysis = .ok stacked) :
    stacked.1.Measures (n + q) ∧ stacked.2.shape = [n + q] ∧ (analysis = none → stacked.1 = K) := by
  cases analysis with
  | none =>
    cases h
    rw [hq rfl]
    exact ⟨hK, hb, fun _ => rfl⟩
  | some rep =>
    obtain ⟨B, image, hBrep, -, hoperator, hzeros⟩ := stackAnalysis_eq_ok.1 h
    obtain ⟨hrange, hoperator⟩ := Operator.stack_range hoperator
    have hanalysed := Operator.measures_flattened (hB rep rfl B hBrep) image.shape
    rw [hrange] at hanalysed
    have hsize : (zeros b.kind [q] : Tensor κ α).size = q := size_of_vector rfl
    have hshape := shape_append hzeros
    rw [size_of_vector hb, hsize] at hshape
    rw [hoperator]
    exact ⟨Operator.measures_stacked hK hanalysed _, hshape, fun hnone => by cases hnone⟩

/-- What is prepared of a request has as many dual entries as there are measurements with the
analysis block, and starts where the request starts. -/
theorem prepare_shapes (hA : ∀ A, r.A.toOperator = .ok A → A.Dependable)
    (hB : ∀ rep ∈ r.options.analysis, ∀ B, rep.toOperator = .ok B → B.Dependable)
    (hprox : ∀ D, r.StandsIn env D → KeepsShape r.prox D)
    (hq : r.options.analysis = none → r.options.q = 0)
    {ready : Prepared (Except (Failure R)) R κ α} (h : prepare env r = .ok ready) :
    ∃ X k, r.StartsIn X ∧ ready.start.Shaped X k
      ∧ (∀ al step, (ready.schedule.problem al step).OnLength (r.b.size + r.options.q) X)
      ∧ (r.options.analysis = none → ∃ A, r.A.toOperator = .ok A
        ∧ ready.schedule.K = .flattened A (r.b.shape.map Int.ofNat)) := by
  obtain ⟨K, x0, stacked, o, -, hK, hx0, hstacked, -, hready⟩ := prepare_eq_ok.1 h
  obtain ⟨scale, epsilon, delta, length, -, -, -, -, -, rfl⟩ := normalise_eq_ok.1 hready
  obtain ⟨A, hArep, hK⟩ := bind_eq_ok.1 hK
  cases hK
  have hmeasures := Operator.measures_flattened (hA A hArep) r.b.shape
  rw [← size_eq] at hmeasures
  have hstart := primalStart_startsIn hArep hx0
  obtain ⟨hstackedK, hstackedb, hplain⟩ := stackAnalysis_shapes hmeasures rfl hB hq hstacked
  refine ⟨x0.shape, _, hstart, ⟨rfl, rfl⟩, fun al step => ⟨hstackedK, hstackedb, ?_⟩,
    fun hnone => ⟨A, hArep, hplain hnone⟩⟩
  intro S D hback hcommon
  exact hprox D ⟨_, x0.shape, S, h, hstart, hback, hcommon⟩

/-- **The shapes of what a run returns.**  The result and all that is recorded have one shape `D`,
the common shape of the start and of what the adjoint makes of the dual iterates, so that of the
start exactly if the latter stretches to it.  The proximal map has to keep that one shape.  The
dual result has as many entries as there are measurements with the analysis block, unless there is
only one and only one step was made. -/
theorem result_shapes {settings : Settings (Except (Failure R)) R κ α}
    (hsettings : settings.check = .ok r.options)
    (hA : ∀ A, r.A.toOperator = .ok A → A.Dependable)
    (hB : ∀ rep ∈ r.options.analysis, ∀ B, rep.toOperator = .ok B → B.Dependable)
    (hprox : ∀ D, r.StandsIn env D → KeepsShape r.prox D)
    {sol : Solution (Except (Failure R)) R κ α} (h : solve env r = .ok sol) :
    ∃ ready X S D M, prepare env r = .ok ready ∧ r.StartsIn X
      ∧ ready.schedule.K.Meets (r.b.size + r.options.q) X S D M
      ∧ sol.x.shape = D ∧ (∀ row ∈ sol.iterates, ∀ x ∈ row, x.shape = D)
      ∧ (D = X ↔ Stretches S X)
      ∧ (r.options.analysis = none →
        (∃ A, r.A.toOperator = .ok A ∧ Sends A.adjoint r.b.shape S) ∧ (r.x0 = none → D = X))
      ∧ sol.y.shape = [commonLength (r.b.size + r.options.q) M]
      ∧ (commonLength (r.b.size + r.options.q) M ≠ r.b.size + r.options.q →
        r.nIter = 1 ∧ r.kIter = 1) := by
  obtain ⟨ready, legs, records, hready, hlegs, hrecords, rfl⟩ := solve_ok h
  obtain ⟨hn, hk⟩ := prepare_counts hready
  obtain ⟨hkIter, -⟩ := prepare_schedule hready
  obtain ⟨X, k, hX, hstart, hproblem, hplain⟩ :=
    prepare_shapes hA hB hprox (settings.check_analysis hsettings) hready
  obtain ⟨c, hc⟩ : ∃ c, r.nIter.toNat = c + 1 := ⟨r.nIter.toNat - 1, by omega⟩
  rw [hc] at hlegs
  obtain ⟨-, S, D, M, hmeets, hpaths, hlast, hone⟩ :=
    Schedule.course_shapes hproblem (hkIter ▸ hk) hstart hlegs
  refine ⟨ready, X, S, D, M, hready, hX, hmeets, hlast.psi, ?_, hmeets.eq_iff, fun hnone => ?_,
    hlast.y, fun hne => ?_⟩
  · intro row hrow x hx
    unfold solution Schedule.trail at hrow
    dsimp only at hrow
    split at hrow
    · rename_i hstore
      rw [Schedule.records_iterates hstore hrecords] at hrow
      obtain ⟨leg, hleg, rfl⟩ := List.mem_map.1 hrow
      exact Schedule.shape_stored (hpaths leg hleg) x hx
    · cases hrow
  · obtain ⟨A, hArep, hK⟩ := hplain hnone
    have hback := hmeets.back
    rw [hK] at hback
    have hS := (Operator.sends_flattened_adjoint hback).2
    refine ⟨⟨A, hArep, hS⟩, fun hx0 => hmeets.eq_iff.2 ?_⟩
    -- Without a start the run begins in the shape that the adjoint gives.
    unfold Request.StartsIn at hX
    rw [hx0] at hX
    obtain ⟨A', hArep', hX⟩ := hX
    cases hArep.symm.trans hArep'
    rw [(hA A hArep).shapesImages.2 hS hX]
    exact .refl X
  · obtain ⟨hc', hk'⟩ := hone hne
    omega

/-- The small request, whose dual result has an entry for its one measurement and one for its
analysis operator. -/
theorem result_shapes_unit :
    unitRequest.options.settings.check = .ok unitRequest.options
      ∧ (∀ A, unitRequest.A.toOperator = .ok A → A.Dependable)
      ∧ (∀ rep ∈ unitRequest.options.analysis, ∀ B, rep.toOperator = .ok B → B.Dependable)
      ∧ (∀ D, unitRequest.StandsIn quietEnvironment D → KeepsShape unitRequest.prox D)
      ∧ ∃ sol, solve quietEnvironment unitRequest = .ok sol ∧ sol.x.shape = [1]
        ∧ (∀ row ∈ sol.iterates, ∀ x ∈ row, x.shape = [1]) ∧ sol.y.shape = [2] := by
  have hA : ∀ A, unitRequest.A.toOperator = .ok A → A.Dependable := by
    rintro _ ⟨⟩
    trivial
  have hB : ∀ rep ∈ unitRequest.options.analysis, ∀ B, rep.toOperator = .ok B → B.Dependable := by
    rintro _ ⟨⟩ _ ⟨⟩
    trivial
  have hprox : ∀ D, unitRequest.StandsIn quietEnvironment D → KeepsShape unitRequest.prox D := by
    rintro D - v t _ hv ⟨⟩
    exact hv
  obtain ⟨sol, hsol⟩ := solve_unit
  obtain ⟨ready, X, S, D, M, hready, hX, hmeets, hx, hiterates, hD, -, hy, -⟩ :=
    result_shapes unitRequest_check hA hB hprox hsol
  cases prepare_unit.symm.trans hready
  have hsize : unitRequest.b.size + unitRequest.options.q = 2 :=
    congrArg (· + 1) (size_of_vector (n := 1) rfl)
  rw [hsize] at hmeets hy
  -- The adjoint takes two entries to one, and the start has one.
  have hback : Sends unitPrepared.schedule.K.adjoint [2] [1] :=
    sends_of_ok (x := ofVec [2] 0) rfl (unitPrepared_linear.acts.adjoint 0)
  have hK : unitPrepared.schedule.K.Dependable := ⟨trivial, trivial⟩
  obtain rfl : S = [1] := hK.shapesImages.2 hmeets.back hback
  obtain rfl : [1] = X := hX
  rw [hD.2 (.refl _)] at hx hiterates
  exact ⟨unitRequest_check, hA, hB, hprox, sol, hsol, hx, hiterates, hy⟩

/-- **A start of another shape is accepted and comes back stretched.**  The start is a vector of
two entries, the measurements of the identity are a row of two entries, and so is the result. -/
theorem stretched_start_accepted : ∃ x0 sol,
    (Row.request [2]).A = .operator .identity ∧ (Row.request [2]).x0 = some x0
      ∧ x0.shape = [2] ∧ (Row.request [2]).b.shape = [1, 2]
      ∧ solve quietEnvironment ((Row.request [2]).restarting 1) = .ok sol
      ∧ sol.x.shape = [1, 2] := by
  obtain ⟨sol, hsol, hx, -⟩ :=
    Row.solve_row (s := [2]) (.inl rfl) (le_refl (1 : ℤ)) Row.start
  refine ⟨_, sol, rfl, rfl, rfl, rfl, hsol, ?_⟩
  rw [hx]
  rfl

end Solver

end PrimalDual
