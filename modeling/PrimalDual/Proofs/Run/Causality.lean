/-
  PrimalDual.Proofs.Run.Causality
  ───────────────────────────────
  **RESTARTS LOOK BACK ONLY.**

  What a restart does depends on the restarts before it and on nothing else:
  not on how many are still to come (`fewer_restarts`), and in a plain run
  not even on how the estimates were reached (`continued_plain`).

  The second half needs a start whose image under the analysis operator has
  the shape of the images of the estimates.  A vector that is used as the
  start of a problem on rows shows why (`Row.request`): the first restart
  turns it into a row, along the first axis of which there are no
  differences, and the run that is taken up again stacks the differences of
  rows where the first one had stacked the differences of vectors.
-/
import PrimalDual.Proofs.Run.WarmStart

namespace PrimalDual

open Tensor

/-! ## §1. A row of two entries. -/

namespace Row

/-- A vector or a row of two entries. -/
def Shape (s : List ℕ) : Prop := s = [2] ∨ s = [1, 2]

theorem addMultiple_tabulate (s : List ℕ) (c : ℝ) (f g : ℕ → ℝ) :
    (addMultiple c (tabulate () s f) (tabulate () s g) : Except (Failure ℝ) _)
      = .ok (tabulate () s fun i => f i + c * g i) :=
  combine_tabulate (Entry.addMultiple c) f g

/-- A vector meets a row as a row. -/
theorem addMultiple_row {s t : List ℕ} (hs : Shape s) (ht : Shape t) (h : s = [1, 2] ∨ t = [1, 2])
    (c : ℝ) (f g : ℕ → ℝ) :
    (addMultiple c (tabulate () s f) (tabulate () t g) : Except (Failure ℝ) _)
      = .ok (tabulate () [1, 2] fun i => f i + c * g i) := by
  have hsource : ∀ s, Shape s → ∀ i < 2, source s [1, 2] i = i ∧ i < s.prod := by
    rintro s (rfl | rfl) <;> decide
  have hstretch : stretch s t = some [1, 2] := by
    rcases h with rfl | rfl
    · rcases ht with rfl | rfl <;> rfl
    · rcases hs with rfl | rfl <;> rfl
  rw [addMultiple_of_stretch c (x := tabulate () s f) (y := tabulate () t g) hstretch]
  refine congrArg Except.ok (tabulate_congr _ _ ?_)
  intro i hi
  obtain ⟨hs, hi₁⟩ := hsource s hs i hi
  obtain ⟨ht, hi₂⟩ := hsource t ht i hi
  rw [shape_tabulate, shape_tabulate, hs, ht, entry_tabulate _ _ _ hi₁, entry_tabulate _ _ _ hi₂]
  rfl

theorem scale_tabulate (s : List ℕ) (c : ℝ) (f : ℕ → ℝ) :
    scale c (tabulate () s f) = tabulate () s fun i => c * f i := by
  refine (withControl_tabulate _ _ _).trans (tabulate_congr _ _ ?_)
  intro i _
  exact mul_comm _ _

theorem rotate_tabulate {s : List ℕ} {t : ℤ} (hs : 0 < s.length) {g : ℕ → ℕ}
    (hg : ∀ i < s.prod, moved (s.getD 0 1) (stride s 0) t i = g i ∧ g i < s.prod) (f : ℕ → ℝ) :
    ((tabulate () s f).rotate t 0 : Except (Failure ℝ) _)
      = .ok (tabulate () s fun i => f (g i)) := by
  have haxis : axisOf s.length 0 = some 0 := if_pos ⟨le_rfl, by exact_mod_cast hs⟩
  obtain ⟨w, hw, hshape, hentry⟩ := rotate_of_axis (x := tabulate () s f) haxis t
  rw [hw]
  refine congrArg Except.ok (ext_entry rfl hshape ?_)
  intro i hi
  rw [size_eq, hshape] at hi
  obtain ⟨hmoved, hlt⟩ := hg i hi
  rw [hentry i (by rwa [size_tabulate]), shape_tabulate, hmoved, entry_tabulate _ _ _ hlt]
  exact (entry_tabulate () s (fun i => f (g i)) hi).symm

/-- The differences along the first axis, where a vector has two entries and a row has one. -/
noncomputable def gaps (s : List ℕ) (f : ℕ → ℝ) (i : ℕ) : ℝ :=
  if s = [2] then f ((i + 1) % 2) - f i else 0

/-- Around a circle of two entries, both directions are the same. -/
theorem difference_tabulate {s : List ℕ} (hs : Shape s) {t : ℤ} (ht : t = 1 ∨ t = -1)
    (f : ℕ → ℝ) :
    ((tabulate () s f).rotate t 0 >>= fun w => w.sub (tabulate () s f) : Except (Failure ℝ) _)
      = .ok (tabulate () s (gaps s f)) := by
  rcases hs with rfl | rfl
  · have hg : ∀ i < [2].prod, moved ([2].getD 0 1) (stride [2] 0) t i = (i + 1) % 2
        ∧ (i + 1) % 2 < [2].prod := by
      rcases ht with rfl | rfl <;> decide
    apply bind_returns (rotate_tabulate (by decide) hg f)
    refine (addMultiple_tabulate _ _ _ f).trans ?_
    refine congrArg Except.ok (tabulate_congr _ _ ?_)
    intro i _
    simp [gaps, sub_eq_add_neg]
  · have hg : ∀ i < [1, 2].prod, moved ([1, 2].getD 0 1) (stride [1, 2] 0) t i = i
        ∧ i < [1, 2].prod := by
      rcases ht with rfl | rfl <;> decide
    apply bind_returns (rotate_tabulate (by decide) hg f)
    refine (addMultiple_tabulate _ _ _ f).trans ?_
    refine congrArg Except.ok (tabulate_congr _ _ ?_)
    intro i _
    simp [gaps]

/-- The identity on rows above the differences, with differences of shape `s`. -/
noncomputable def operator (s : List ℕ) : Operator (Except (Failure ℝ)) ℝ Unit ℝ :=
  .stacked (.flattened .identity [1, 2]) (.flattened (.difference 0) (s.map Int.ofNat)) (.whole 2)

theorem forward_row (s : List ℕ) (f : ℕ → ℝ) :
    (operator s).forward (tabulate () [1, 2] f)
      = .ok (tabulate () [4] fun i => if i < 2 then f i else 0) := by
  have hgaps : (Operator.differenceForward 0 (tabulate () [1, 2] f) : Except (Failure ℝ) _)
      = .ok (tabulate () [1, 2] fun _ => 0) := difference_tabulate (.inr rfl) (.inr rfl) f
  -- A row has one entry along the first axis, so its differences vanish.
  have hlead : (Operator.flattened .identity [1, 2]
      : Operator (Except (Failure ℝ)) ℝ Unit ℝ).forward (tabulate () [1, 2] f)
        = .ok (tabulate () [2] f) := by
    apply bind_returns rfl
    rw [flatten_tabulate]
    rfl
  have htrail : (Operator.flattened (.difference 0) (s.map Int.ofNat)
      : Operator (Except (Failure ℝ)) ℝ Unit ℝ).forward (tabulate () [1, 2] f)
        = .ok (tabulate () [2] fun _ => 0) := by
    apply bind_returns hgaps
    rw [flatten_tabulate]
    rfl
  apply bind_returns hlead
  apply bind_returns htrail
  rw [flatten_tabulate, flatten_tabulate]
  exact append_tabulate _ _

theorem adjoint_row {s : List ℕ} (hs : Shape s) (y : ℕ → ℝ) :
    (operator s).adjoint (tabulate () [4] y)
      = .ok (tabulate () [1, 2] fun i => y i + gaps s (fun i => y (2 + i)) i) := by
  have hprod : [2].prod = s.prod := by rcases hs with rfl | rfl <;> rfl
  have hlead : (Operator.flattened .identity [1, 2]
      : Operator (Except (Failure ℝ)) ℝ Unit ℝ).adjoint (tabulate () [2] y)
        = .ok (tabulate () [1, 2] y) := by
    apply bind_returns (reshape_tabulate (t := [2]) (s := [1, 2]) y rfl)
    rfl
  have htrail : (Operator.flattened (.difference 0) (s.map Int.ofNat)
      : Operator (Except (Failure ℝ)) ℝ Unit ℝ).adjoint (tabulate () [2] fun i => y (2 + i))
        = .ok (tabulate () s (gaps s fun i => y (2 + i))) := by
    apply bind_returns (reshape_tabulate _ hprod)
    exact difference_tabulate hs (.inl rfl) _
  apply bind_returns rfl
  apply bind_returns (leading_tabulate (n := 4) (m := 2) y (by decide))
  apply bind_returns hlead
  apply bind_returns (trailing_tabulate (n := 4) (m := 2) y (by decide))
  apply bind_returns htrail
  refine (addMultiple_row (.inr rfl) hs (.inl rfl) _ _ _).trans ?_
  simp

/-- The plain request for the row `[1, 0]` with small differences, from zeros of shape `s`. -/
noncomputable def request (s : List ℕ) : Request (Except (Failure ℝ)) ℝ Unit ℝ where
  A := .operator .identity
  b := tabulate () [1, 2] fun i => if i = 0 then 1 else 0
  epsilon := 0
  delta := 0
  prox := Regulariser.prox .zero
  x0 := some (tabulate () s fun _ => 0)
  y0 := some (tabulate () [4] fun i => if i = 2 then 1 / 2 else 0)
  nIter := 2
  kIter := 1
  options := { Schedule.unitOptions with
    outputType := .plain
    bound := some 1
    analysis := some (.operator (.difference 0))
    q := 2 }
  callback := none

/-- The problem of the request from any start of shape `s`. -/
noncomputable def schedule (s : List ℕ) : Schedule (Except (Failure ℝ)) ℝ Unit ℝ where
  b := tabulate () [4] fun i => if i = 0 then 1 else 0
  K := operator s
  epsilon := 0
  delta := 0
  prox := Regulariser.prox .zero
  kIter := 1
  options := (request s).options
  outputType := .whole 4
  scale := 1
  callback := none

/-- The entries of both estimates, one step later. -/
noncomputable def next (s : List ℕ) (e : (ℕ → ℝ) × (ℕ → ℝ)) : (ℕ → ℝ) × (ℕ → ℝ) :=
  let x i := e.1 i - (e.2 i + gaps s (fun i => e.2 (2 + i)) i)
  (x, fun i => if i < 2 then e.2 i + (2 * x i - e.1 i) - (if i = 0 then 1 else 0)
    else Prox.clipFactor ‖e.2 i‖ * e.2 i)

theorem dualUpdate_row (s : List ℕ) (y u : ℕ → ℝ) :
    ((schedule s).problem 1 1).dualUpdate (tabulate () [4] y)
        (tabulate () [4] fun i => if i < 2 then u i else 0)
      = .ok (tabulate () [4] fun i => if i < 2 then y i + u i - (if i = 0 then 1 else 0)
          else Prox.clipFactor ‖y i‖ * y i) := by
  have hrho : ((schedule s).problem 1 1).dualStep * ((schedule s).problem 1 1).epsilon = 0 := by
    show (1 : ℝ) * (1 * 0) = 0
    norm_num
  have hshrink : ∀ r, Prox.shrinkFactor 0 r = 1 := by
    intro r
    unfold Prox.shrinkFactor
    rw [zero_div, sub_zero, max_eq_right zero_le_one]
  have hscaled : Tensor.scale ((schedule s).problem 1 1).dualStep
      (tabulate () [4] fun i => if i < 2 then u i else 0)
        = tabulate () [4] fun i => if i < 2 then u i else 0 := scale_one _
  have hb : Tensor.scale ((schedule s).problem 1 1).dualStep ((schedule s).problem 1 1).b
      = tabulate () [4] fun i => if i = 0 then 1 else 0 := by
    show Tensor.scale 1 (Tensor.scale 1 (schedule s).b) = _
    rw [scale_one, scale_one]
    rfl
  unfold Problem.dualUpdate
  rw [hscaled, hb, hrho]
  -- With no tolerance only the block of the differences is changed by the dual map.
  apply bind_returns (addMultiple_tabulate _ _ _ _)
  apply bind_returns (addMultiple_tabulate _ _ _ _)
  refine (Prox.dual_tabulate _ 0 (m := 2) (q := 2) rfl _).trans ?_
  refine congrArg Except.ok (tabulate_congr _ _ ?_)
  intro i _
  rw [hshrink]
  by_cases hi : i < 2
  · by_cases hi₀ : i = 0
    · simp [hi₀, sub_eq_add_neg]
    · simp [hi, hi₀]
  · have hi₀ : i ≠ 0 := by omega
    simp [hi, hi₀]

theorem advance_row {s t : List ℕ} (hs : Shape s) (ht : Shape t) (e : (ℕ → ℝ) × (ℕ → ℝ)) :
    ((schedule s).problem 1 1).advance (.start (tabulate () t e.1) (tabulate () [4] e.2))
      = .ok ⟨tabulate () [1, 2] (next s e).1, tabulate () [4] (next s e).2,
          tabulate () [1, 2] (next s e).1, tabulate () [4] (next s e).2⟩ := by
  have hargument : ((schedule s).problem 1 1).primalArgument (tabulate () t e.1)
      (tabulate () [1, 2] fun i => e.2 i + gaps s (fun i => e.2 (2 + i)) i)
        = .ok (tabulate () [1, 2] (next s e).1) := by
    unfold Problem.primalArgument
    rw [show ((schedule s).problem 1 1).primalStep = 1 from rfl, scale_one]
    refine (addMultiple_row ht (.inr rfl) (.inr rfl) _ _ _).trans ?_
    refine congrArg Except.ok (tabulate_congr _ _ ?_)
    intro i _
    simp [next]
    ring
  have hextrapolated : (Problem.extrapolate (tabulate () [1, 2] (next s e).1) (tabulate () t e.1)
      : Except (Failure ℝ) _) = .ok (tabulate () [1, 2] fun i => 2 * (next s e).1 i - e.1 i) := by
    unfold Problem.extrapolate
    rw [scale_tabulate]
    refine (addMultiple_row (.inr rfl) ht (.inl rfl) _ _ _).trans ?_
    refine congrArg Except.ok (tabulate_congr _ _ ?_)
    intro i _
    simp [sub_eq_add_neg]
  -- The sums begin with zeros in the shape of the start, and a row makes rows of them.
  have hx : ((tabulate () t e.1).zerosLike.add (tabulate () [1, 2] (next s e).1)
      : Except (Failure ℝ) _) = .ok (tabulate () [1, 2] (next s e).1) := by
    refine (addMultiple_row ht (.inr rfl) (.inr rfl) _ _ _).trans ?_
    simp
  have hy : ((tabulate () [4] e.2).zerosLike.add (tabulate () [4] (next s e).2)
      : Except (Failure ℝ) _) = .ok (tabulate () [4] (next s e).2) := by
    refine (addMultiple_tabulate _ _ _ _).trans ?_
    simp
  apply bind_returns (adjoint_row hs e.2)
  apply bind_returns hargument
  apply bind_returns rfl
  apply bind_returns hextrapolated
  apply bind_returns (forward_row s _)
  apply bind_returns (dualUpdate_row s _ _)
  apply bind_returns hx
  apply bind_returns hy
  rfl

/-- The estimates have given entries, the primal one in shape `s`. -/
structure Holds (s : List ℕ) (e : (ℕ → ℝ) × (ℕ → ℝ)) (state : RestartState ℝ Unit ℝ) : Prop where
  psi : state.psi = tabulate () s e.1
  y : state.y = tabulate () [4] e.2

/-- A restart of the request is one step, of which nothing is recorded. -/
theorem leg_row {s t : List ℕ} (hs : Shape s) (ht : Shape t) {e : (ℕ → ℝ) × (ℕ → ℝ)}
    {state : RestartState ℝ Unit ℝ} (hstate : Holds t e state) :
    ∃ leg, (schedule s).leg state 1 = .ok leg ∧ Holds [1, 2] (next s e) leg.next
      ∧ ∀ offset, (schedule s).record leg offset = .ok ⟨[], []⟩ := by
  have hfirst : Schedule.first state (1 : ℝ)
      = .start (tabulate () t e.1) (tabulate () [4] e.2) := by
    unfold Schedule.first
    rw [hstate.psi, hstate.y, scale_one]
  have hstep : Schedule.stepSize (schedule s).options = .ok 1 := by
    apply bind_returns rfl
    rw [Control.quotient_real _ one_ne_zero, div_one]
    rfl
  have hpath : ((schedule s).problem 1 1).path 1 (Schedule.first state 1)
      = .ok [⟨tabulate () [1, 2] (next s e).1, tabulate () [4] (next s e).2,
          tabulate () [1, 2] (next s e).1, tabulate () [4] (next s e).2⟩] := by
    rw [hfirst]
    apply bind_returns (advance_row hs ht e)
    rfl
  have hkIter : (Control.ofInt (schedule s).kIter : ℝ) = 1 := Int.cast_one
  -- The means of one step are the step, and a factor of 1 leaves it as it is.
  refine ⟨_, Schedule.leg_of_path hstep rfl hpath, ⟨?_, ?_⟩, fun _ => rfl⟩
  · show ((tabulate () [1, 2] (next s e).1).divBy (Control.ofInt (schedule s).kIter : ℝ)).divBy
      (1 : ℝ) = _
    rw [hkIter, divBy_one, divBy_one]
  · show (tabulate () [4] (next s e).2).divBy (Control.ofInt (schedule s).kIter : ℝ) = _
    rw [hkIter, divBy_one]

/-- Each restart of a course is one step, and from the first one on there are rows. -/
theorem course_row {s t : List ℕ} (hs : Shape s) (ht : Shape t) (n j : ℕ)
    {e : (ℕ → ℝ) × (ℕ → ℝ)} {state : RestartState ℝ Unit ℝ} (hstate : Holds t e state) :
    ∃ legs records, (schedule s).course n state = .ok legs
      ∧ (schedule s).records j legs = .ok records
      ∧ Holds (if n = 0 then t else [1, 2]) ((next s)^[n] e) (Leg.last state legs) := by
  induction n generalizing j e t state with
  | zero => exact ⟨[], [], rfl, rfl, hstate⟩
  | succ n ih =>
    obtain ⟨leg, hleg, hnext, hrecord⟩ := leg_row hs ht hstate
    obtain ⟨legs, records, hlegs, hrecords, hlast⟩ := ih (.inr rfl) (j + 1) hnext
    have hal : Solver.rescale (schedule s) state.eps = .ok 1 := congrArg Except.ok Int.cast_one
    refine ⟨leg :: legs, ⟨[], []⟩ :: records, ?_, ?_, ?_⟩
    · exact Schedule.course_cons hal hleg hlegs
    · exact Schedule.records_cons (hrecord _) hrecords
    · rw [ite_self] at hlast
      rw [Leg.last_cons, if_neg n.succ_ne_zero]
      exact hlast

/-- The measurements have length 1. -/
theorem norm_measurements (s : List ℕ) : ‖vec (request s).b.shape (request s).b‖ = 1 := by
  have hsum : ∑ i ∈ Finset.range 2, ‖(request s).b.entry i‖ ^ 2 = 1 := by
    rw [Finset.sum_range_succ, Finset.sum_range_one]
    simp [request, entry_tabulate]
  rw [norm_eq_sqrt_sum, ofVec_vec rfl]
  exact (congrArg Real.sqrt hsum).trans Real.sqrt_one

/-- Padded, the measurements are those of the schedule. -/
theorem target_row (s t : List ℕ) : (request s).target = (schedule t).b := by
  have hflat : (request s).b.flatten = tabulate () [2] fun i => if i = 0 then 1 else 0 :=
    flatten_tabulate _
  show (request s).b.flatten.padded 2 = _
  rw [hflat]
  unfold padded
  rw [size_tabulate]
  apply tabulate_congr (g := fun i => if i = 0 then 1 else 0) _ _
  intro i _
  by_cases hi₂ : i < [2].prod
  · rw [if_pos hi₂, entry_tabulate _ _ _ hi₂]
  · have hi₀ : i ≠ 0 := by
      rintro rfl
      exact hi₂ (by decide)
    rw [if_neg hi₂, if_neg hi₀]

/-- The differences are stacked below the rows in the shape of the image of the start. -/
theorem stack_row {t : List ℕ} (ht : Shape t) (f : ℕ → ℝ) :
    Solver.stackOperator (.flattened .identity [1, 2]) (tabulate () t f) 2
      (some (.operator (.difference 0))) = (.ok (operator t) : Except (Failure ℝ) _) := by
  apply bind_returns rfl
  apply bind_returns (difference_tabulate ht (.inr rfl) f)
  rcases ht with rfl | rfl <;> rfl

theorem prepare_row {s t : List ℕ} (ht : Shape t) {n : ℤ} (hn : 1 ≤ n)
    (e : (ℕ → ℝ) × (ℕ → ℝ)) :
    Solver.prepare quietEnvironment
        ((request s).continuing n (tabulate () t e.1) (tabulate () [4] e.2))
      = .ok ⟨schedule t, ⟨tabulate () t e.1, tabulate () [4] e.2, 3 / 4⟩⟩ := by
  let r : Request (Except (Failure ℝ)) ℝ Unit ℝ :=
    (request s).continuing n (tabulate () t e.1) (tabulate () [4] e.2)
  have hnorm := norm_measurements s
  have hready : Solver.prepare quietEnvironment r
      = .ok ⟨Solver.plainSchedule r (operator t), Solver.plainStart r (tabulate () t e.1)⟩ := by
    rw [Solver.prepare_plain (r := r) (L := 1) hn le_rfl le_rfl le_rfl rfl
      (hnorm ▸ one_ne_zero) rfl]
    apply bind_returns rfl
    apply bind_returns rfl
    apply bind_returns (stack_row ht e.1)
    rfl
  -- The norm of the measurements is 1, so dividing by it changes nothing.
  have hschedule : Solver.plainSchedule r (operator t) = schedule t := by
    unfold Solver.plainSchedule
    rw [show r.b = (request s).b from rfl, show r.target = (schedule t).b from target_row s t,
      hnorm, divBy_one, show r.epsilon = 0 from rfl, show r.delta = 0 from rfl, zero_div]
    rfl
  have hstart : Solver.plainStart r (tabulate () t e.1)
      = ⟨tabulate () t e.1, tabulate () [4] e.2, 3 / 4⟩ := by
    have hy : (tabulate () [4] e.2).flatten = tabulate () [4] e.2 := flatten_tabulate _
    unfold Solver.plainStart
    rw [show r.b = (request s).b from rfl, show r.y0 = some (tabulate () [4] e.2) from rfl,
      Option.getD_some, hy, hnorm, divBy_one, divBy_one]
    rfl
  rw [← hschedule, ← hstart]
  exact hready

/-- The request returns after any number of restarts, each of which is one step. -/
theorem solve_row {s t : List ℕ} (ht : Shape t) {n : ℤ} (hn : 1 ≤ n) (e : (ℕ → ℝ) × (ℕ → ℝ)) :
    ∃ sol, Solver.solve quietEnvironment
        ((request s).continuing n (tabulate () t e.1) (tabulate () [4] e.2)) = .ok sol
      ∧ sol.x = tabulate () [1, 2] ((next t)^[n.toNat] e).1
      ∧ sol.y = tabulate () [4] ((next t)^[n.toNat] e).2 := by
  have hstart : Holds t e ⟨tabulate () t e.1, tabulate () [4] e.2, 3 / 4⟩ := ⟨rfl, rfl⟩
  obtain ⟨legs, records, hlegs, hrecords, hlast⟩ := course_row ht ht n.toNat 0 hstart
  rw [if_neg (show n.toNat ≠ 0 by omega)] at hlast
  refine ⟨_, Solver.solve_of_course quietEnvironment_receptive (prepare_row ht hn e) hlegs hrecords,
    ?_, ?_⟩
  · show Tensor.scale (1 : ℝ) _ = _
    rw [scale_one]
    exact hlast.psi
  · show Tensor.scale (1 : ℝ) _ = _
    rw [scale_one]
    exact hlast.y

/-- The entries of the start. -/
noncomputable def start : (ℕ → ℝ) × (ℕ → ℝ) := (fun _ => 0, fun i => if i = 2 then 1 / 2 else 0)

end Row

/-! ## §2. Restarts. -/

namespace Solver

/-- **Restarts look back only.**  A run that returns has gone through the runs with fewer
restarts, and their histories, iterates, errors and shown iterates are the beginnings of its own.
In exact arithmetic, a plain run with a bound that is stopped and taken up again from what it
returned ends where the run that was not stopped ends, if the analysis operator gives the images
of both starts one shape. -/
theorem restarts_causal :
    (∀ {R κ α : Type} [Control R] [Kinds κ] [Entry α R κ]
      {env : Environment (Except (Failure R)) R κ α} {r : Request (Except (Failure R)) R κ α}
      {n₁ n₂ : ℤ} {sol : Solution (Watched R κ α) R κ α} {calls : List (Call κ α)},
      env.Receptive → 1 ≤ n₁ → 1 ≤ n₂ →
      watch env (r.restarting (n₁ + n₂)) = .ok (sol, calls) →
      ∃ sol₁ calls₁, watch env (r.restarting n₁) = .ok (sol₁, calls₁)
        ∧ sol₁.alHistory = sol.alHistory.take n₁.toNat
        ∧ sol₁.epsHistory = sol.epsHistory.take n₁.toNat
        ∧ sol₁.iterates = sol.iterates.take n₁.toNat
        ∧ sol₁.errors = sol.errors.take (n₁.toNat * r.kIter.toNat)
        ∧ calls₁.filterMap Call.shown?
          = (calls.filterMap Call.shown?).take (n₁.toNat * r.kIter.toNat))
    ∧ ∀ {𝕜 : Type} [RCLike 𝕜] {env : Environment (Except (Failure ℝ)) ℝ Unit 𝕜}
      {r : Request (Except (Failure ℝ)) ℝ Unit 𝕜} {L : ℝ} {n₁ n₂ : ℤ}
      {sol sol₁ : Solution (Except (Failure ℝ)) ℝ Unit 𝕜},
      env.Receptive → r.options.outputType = .plain → r.options.bound = some L →
      1 ≤ n₁ → 1 ≤ n₂ →
      solve env (r.restarting (n₁ + n₂)) = .ok sol →
      solve env (r.restarting n₁) = .ok sol₁ → r.SameRange sol₁.x →
      (∀ sol₂, solve env (r.continuing n₂ sol₁.x sol₁.y) = .ok sol₂ →
          sol₂.x = sol.x ∧ sol₂.y = sol.y)
        ∧ ((∀ f ∈ r.callback, ∀ k x, f k x = .ok ()) →
          ∃ sol₂, solve env (r.continuing n₂ sol₁.x sol₁.y) = .ok sol₂) :=
  ⟨fun henv hn₁ hn₂ h => fewer_restarts henv hn₁ hn₂ h,
    fun henv hplain hL hn₁ hn₂ h h₁ hrange => continued_plain henv hplain hL hn₁ hn₂ h h₁ hrange⟩

/-- The small request with one and with two restarts, and the request for a row from a row. -/
theorem restarts_causal_unit :
    (∃ sol calls sol₁ calls₁, watch quietEnvironment unitRequest = .ok (sol, calls)
      ∧ watch quietEnvironment (unitRequest.restarting 1) = .ok (sol₁, calls₁)
      ∧ sol₁.alHistory = sol.alHistory.take 1
      ∧ sol₁.iterates = sol.iterates.take 1
      ∧ sol₁.errors = sol.errors.take (1 * 3)
      ∧ calls₁.filterMap Call.shown? = (calls.filterMap Call.shown?).take (1 * 3))
    ∧ ∃ sol sol₁ sol₂, solve quietEnvironment ((Row.request [1, 2]).restarting (1 + 1)) = .ok sol
      ∧ solve quietEnvironment ((Row.request [1, 2]).restarting 1) = .ok sol₁
      ∧ solve quietEnvironment ((Row.request [1, 2]).continuing 1 sol₁.x sol₁.y) = .ok sol₂
      ∧ sol₂.x = sol.x ∧ sol₂.y = sol.y := by
  constructor
  · obtain ⟨_, hsol⟩ := solve_unit
    obtain ⟨⟨sol, calls⟩, h⟩ := watch_returns quietEnvironment_receptive hsol
    obtain ⟨sol₁, calls₁, h₁, hal, -, hiterates, herrors, hshown⟩ :=
      restarts_causal.1 (r := unitRequest) quietEnvironment_receptive (le_refl (1 : ℤ))
        (le_refl (1 : ℤ)) h
    exact ⟨sol, calls, sol₁, calls₁, h, h₁, hal, hiterates, herrors, hshown⟩
  · obtain ⟨sol, hsol, -, -⟩ :=
      Row.solve_row (s := [1, 2]) (.inr rfl) (show (1 : ℤ) ≤ 1 + 1 by decide) Row.start
    obtain ⟨sol₁, hsol₁, hx₁, -⟩ :=
      Row.solve_row (s := [1, 2]) (.inr rfl) (le_refl (1 : ℤ)) Row.start
    -- The estimates that are returned are rows again, with images of the shape they had.
    have hrange : (Row.request [1, 2]).SameRange sol₁.x := by
      rintro _ _ _ _ image ⟨⟩ ⟨⟩ - ⟨⟩ himage
      have hstart := Row.difference_tabulate (s := [1, 2]) (.inr rfl) (.inr rfl) fun _ => 0
      cases hstart.symm.trans himage
      refine ⟨_, ?_, rfl⟩
      rw [hx₁]
      exact Row.difference_tabulate (.inr rfl) (.inr rfl) _
    obtain ⟨hsame, hreturns⟩ := restarts_causal.2 (L := 1) quietEnvironment_receptive rfl rfl
      (le_refl (1 : ℤ)) (le_refl (1 : ℤ)) hsol hsol₁ hrange
    obtain ⟨sol₂, hsol₂⟩ := hreturns fun f hf => by cases hf
    exact ⟨sol, sol₁, sol₂, hsol, hsol₁, hsol₂, hsame sol₂ hsol₂⟩

/-- **From a vector, the plain request for a row is not continued by its second run.**  The first
restart turns the vector into a row, whose differences the second run takes along the other axis. -/
theorem continued_row_differs :
    quietEnvironment.Receptive ∧ (Row.request [2]).options.outputType = .plain
      ∧ (Row.request [2]).options.bound = some 1
      ∧ ∃ sol sol₁ sol₂ : Solution (Except (Failure ℝ)) ℝ Unit ℝ,
        solve quietEnvironment ((Row.request [2]).restarting (1 + 1)) = .ok sol
          ∧ solve quietEnvironment ((Row.request [2]).restarting 1) = .ok sol₁
          ∧ solve quietEnvironment ((Row.request [2]).continuing 1 sol₁.x sol₁.y) = .ok sol₂
          ∧ sol.x.entry 0 = 1 ∧ sol₂.x.entry 0 = 1 / 2 ∧ sol₂.x ≠ sol.x := by
  obtain ⟨sol, hsol, hx, -⟩ :=
    Row.solve_row (s := [2]) (.inl rfl) (show (1 : ℤ) ≤ 1 + 1 by decide) Row.start
  obtain ⟨sol₁, hsol₁, hx₁, hy₁⟩ :=
    Row.solve_row (s := [2]) (.inl rfl) (le_refl (1 : ℤ)) Row.start
  obtain ⟨sol₂, hsol₂, hx₂, -⟩ :=
    Row.solve_row (s := [2]) (.inr rfl) (le_refl (1 : ℤ)) (Row.next [2] Row.start)
  -- The dual entry of the differences stays 1/2, so vectors and rows are moved apart by it.
  have hclip : Prox.clipFactor 2⁻¹ = 1 := by
    have hfloor : (Prox.normFloor : ℝ) ≤ 2⁻¹ := by
      show ((1 : ℕ) : ℝ) * 10 ^ (-43 : ℤ) ≤ 2⁻¹
      norm_num
    refine min_eq_left ?_
    rw [le_div_iff₀ (by linarith [Prox.normFloor_pos])]
    linarith
  have hlong : sol.x.entry 0 = 1 := by
    rw [hx, entry_tabulate _ _ _ (by decide)]
    simp [Row.next, Row.gaps, Row.start, hclip]
    norm_num
  have hwarm : sol₂.x.entry 0 = 1 / 2 := by
    rw [hx₂, entry_tabulate _ _ _ (by decide)]
    simp [Row.next, Row.gaps, Row.start]
  refine ⟨quietEnvironment_receptive, rfl, rfl, sol, sol₁, sol₂, hsol, hsol₁, ?_, hlong, hwarm, ?_⟩
  · rw [hx₁, hy₁]
    exact hsol₂
  · intro h
    rw [h, hlong] at hwarm
    norm_num at hwarm

end Solver

end PrimalDual
