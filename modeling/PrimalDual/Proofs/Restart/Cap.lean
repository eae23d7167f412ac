/-
  PrimalDual.Proofs.Restart.Cap
  ─────────────────────────────
  **WHAT THE CAP OF THE RESCALING FACTOR PROTECTS.**

  The factor of a restart is `1 / divisor`, cut down to `maxRescale`, where

      divisor = C₁ (delta + eps) / (root N) · k

  The cap comes after the division.  So it protects every target error that
  is small, however small it is, and none that has vanished: with
  `delta = eps = 0` the division is refused before there is anything to cap.

      factor_of_pos       a positive error:  the factor is in (0, maxRescale]
      factor_vanished     no error at all:   a division by zero
      min_eq_cap_iff      the cap is reached where `divisor ≤ 1 / maxRescale`

  In exact arithmetic the target errors of a run stay positive.  In an
  arithmetic in which `upsilon · eps` can underflow they need not, and then
  the run ends there (`restarts_stop`), whatever the arithmetic is.
-/
import PrimalDual.Proofs.Run.Targets

namespace PrimalDual

namespace Rescaling

variable {m : Type → Type} {κ α : Type} {o : Options m ℝ κ α}
variable {q : ℕ} {L eps delta : ℝ} {kIter : ℤ}

/-! ## §1. The divisor. -/

/-- What 1 is divided by to give the rescaling factor, for an operator bound `L`. -/
noncomputable def divisor (o : Options m ℝ κ α) (q : ℕ) (L eps delta : ℝ) (kIter : ℤ) : ℝ :=
  o.C1 * (delta + eps) / (root o q * stepBudget o q L) * kIter

theorem factor_eq_quotient (ho : o.Valid) (hL : o.bound = some L) :
    factor eps delta kIter o (.whole q)
      = (min · maxRescale) <$> Control.quotient 1 (divisor o q L eps delta kIter) := by
  rw [factor_eq, uncapped_eq ho hL]
  rfl

/-- The divisor is a positive multiple of the error that is left. -/
theorem exists_divisor_eq (ho : o.Valid) (hL : o.bound = some L) (hk : 1 ≤ kIter) :
    ∃ c, 0 < c ∧ ∀ eps delta, divisor o q L eps delta kIter = c * (delta + eps) := by
  have hroot := root_pos (q := q) ho
  have hbudget : (0 : ℝ) < stepBudget o q L := Int.cast_pos.2 (stepBudget_pos ho hL)
  have hC := ho.C1_pos
  have hsteps : (0 : ℝ) < kIter := Int.cast_pos.2 (by omega)
  refine ⟨o.C1 / (root o q * stepBudget o q L) * kIter, by positivity, ?_⟩
  intro eps delta
  unfold divisor
  ring

theorem divisor_pos (ho : o.Valid) (hL : o.bound = some L) (hk : 1 ≤ kIter)
    (h : 0 < delta + eps) : 0 < divisor o q L eps delta kIter := by
  obtain ⟨c, hc, hdivisor⟩ := exists_divisor_eq (q := q) ho hL hk
  rw [hdivisor]
  exact mul_pos hc h

/-! ## §2. The factor. -/

/-- A positive error has a factor. -/
theorem factor_of_pos (ho : o.Valid) (hL : o.bound = some L) (hk : 1 ≤ kIter)
    (h : 0 < delta + eps) : factor eps delta kIter o (.whole q)
      = .ok (min (1 / divisor o q L eps delta kIter) maxRescale) := by
  rw [factor_eq_quotient ho hL, Control.quotient_real _ (divisor_pos ho hL hk h).ne']
  rfl

/-- **An error that has vanished has none**, and the cap does not come to bear. -/
theorem factor_vanished (ho : o.Valid) (hL : o.bound = some L) (hk : 1 ≤ kIter) :
    factor 0 0 kIter o (.whole q) = .error .divisionByZero := by
  obtain ⟨c, -, hdivisor⟩ := exists_divisor_eq (q := q) ho hL hk
  rw [factor_eq_quotient ho hL, hdivisor, add_zero, mul_zero]
  simp [Control.quotient]

theorem maxRescale_pos : (0 : ℝ) < maxRescale := by
  rw [maxRescale_real]
  positivity

theorem min_pos_of_divisor {d : ℝ} (hd : 0 < d) : 0 < min (1 / d) maxRescale :=
  lt_min (one_div_pos.2 hd) maxRescale_pos

/-- The factor is the cap exactly where the divisor is small enough for it. -/
theorem min_eq_cap_iff {d : ℝ} (hd : 0 < d) :
    min (1 / d) maxRescale = maxRescale ↔ d ≤ 1 / maxRescale := by
  rw [min_eq_right_iff, le_one_div maxRescale_pos hd]

/-- **The factor of a restart.**  For valid options and errors that are not negative, it exists
exactly if one of the two errors is positive.  Then it lies above zero and at most at the cap,
and it is the cap exactly where `beta · k` is at most the reciprocal of the cap.  If both errors
are zero the restart fails with a division by zero. -/
theorem factor_returns_iff (ho : o.Valid) (hL : o.bound = some L) (heps : 0 ≤ eps)
    (hdelta : 0 ≤ delta) (hk : 1 ≤ kIter) (q : ℕ) :
    ((∃ al, factor eps delta kIter o (.whole q) = .ok al) ↔ 0 < eps ∨ 0 < delta)
    ∧ (∀ al, factor eps delta kIter o (.whole q) = .ok al → 0 < al ∧ al ≤ 10 ^ 12
        ∧ (al = 10 ^ 12 ↔ o.C1 * (delta + eps) / (√(o.C2 ^ 2 + q)
            * ⌈2 * o.C1 * √(o.C2 ^ 2 + q) * L / (o.tau * o.upsilon)⌉) * kIter ≤ 1 / 10 ^ 12))
    ∧ (eps = 0 → delta = 0 →
        factor eps delta kIter o (.whole q) = .error .divisionByZero) := by
  have hvanished : eps = 0 → delta = 0 →
      factor eps delta kIter o (.whole q) = .error .divisionByZero := by
    intro heps₀ hdelta₀
    rw [heps₀, hdelta₀]
    exact factor_vanished ho hL hk
  by_cases hpos : 0 < delta + eps
  · have hfactor := factor_of_pos (q := q) ho hL hk hpos
    have hd := divisor_pos (q := q) ho hL hk hpos
    have hone : 0 < eps ∨ 0 < delta := by
      by_contra hneither
      push Not at hneither
      linarith [hneither.1, hneither.2]
    refine ⟨⟨fun _ => hone, fun _ => ⟨_, hfactor⟩⟩, ?_, hvanished⟩
    intro al hal
    cases hfactor.symm.trans hal
    rw [← maxRescale_real]
    exact ⟨min_pos_of_divisor hd, min_le_right _ _, min_eq_cap_iff hd⟩
  · -- Neither error is negative, so both are zero.
    have hboth : eps = 0 ∧ delta = 0 := by
      constructor <;> linarith
    obtain ⟨rfl, rfl⟩ := hboth
    have hrefused := hvanished rfl rfl
    refine ⟨⟨?_, by simp⟩, ?_, hvanished⟩
    · rintro ⟨al, hal⟩
      cases hrefused.symm.trans hal
    · intro al hal
      cases hrefused.symm.trans hal

/-- A restart of ten steps with the target error 1. -/
theorem factor_returns_iff_unit :
    Schedule.unitOptions.Valid ∧ Schedule.unitOptions.bound = some 2
    ∧ (0 : ℝ) ≤ 1 ∧ (0 : ℝ) ≤ 0 ∧ (1 : ℤ) ≤ 10
    ∧ ((∃ al, factor 1 0 10 Schedule.unitOptions (.whole (1 : ℕ)) = .ok al)
        ↔ (0 : ℝ) < 1 ∨ (0 : ℝ) < 0)
    ∧ (∀ al, factor 1 0 10 Schedule.unitOptions (.whole (1 : ℕ)) = .ok al →
        0 < al ∧ al ≤ 10 ^ 12) := by
  have hvalid := Schedule.unitOptions_valid
  have hbound : Schedule.unitOptions.bound = some 2 := rfl
  have heps : (0 : ℝ) ≤ 1 := zero_le_one
  have hdelta : (0 : ℝ) ≤ 0 := le_rfl
  have hk : (1 : ℤ) ≤ 10 := by decide
  obtain ⟨hreturns, hrange, -⟩ := factor_returns_iff hvalid hbound heps hdelta hk 1
  refine ⟨hvalid, hbound, heps, hdelta, hk, hreturns, ?_⟩
  intro al hal
  exact ⟨(hrange al hal).1, (hrange al hal).2.1⟩

/-- The cap does not protect a target error of zero. -/
theorem vanished_target_refused :
    Schedule.unitOptions.settings.check = .ok Schedule.unitOptions
    ∧ factor 0 0 1 Schedule.unitOptions (.whole (0 : ℕ)) = .error .divisionByZero := by
  have hvalid := Schedule.unitOptions_valid
  have hbound : Schedule.unitOptions.bound = some 2 := rfl
  exact ⟨Schedule.unitOptions_check, factor_vanished hvalid hbound le_rfl⟩

end Rescaling

/-! ## §3. Runs. -/

section Runs

variable {R κ α : Type} [Control R] [Kinds κ] [Entry α R κ]
variable {s : Schedule (Except (Failure R)) R κ α} {e : ℕ → R} {f : Failure R}

/-- No course goes past a restart whose factor is refused. -/
theorem Schedule.course_refused {n j : ℕ} (hj : j < n) {state : RestartState R κ α}
    (hstart : e 0 = state.eps) (hnext : ∀ i, e (i + 1) = s.nextError (e i))
    (hrefused : Solver.rescale s (e j) = .error f) (legs : List (Leg R κ α)) :
    s.course n state ≠ .ok legs := by
  -- The errors of the later restarts begin one place further on.
  induction j generalizing n e state legs with
  | zero =>
    intro h
    obtain ⟨m, rfl⟩ : ∃ m, n = m + 1 := ⟨n - 1, by omega⟩
    obtain ⟨al, leg, later, hal, -⟩ := course_succ_ok h
    rw [← hstart, hrefused] at hal
    cases hal
  | succ j ih =>
    intro h
    obtain ⟨m, rfl⟩ : ∃ m, n = m + 1 := ⟨n - 1, by omega⟩
    obtain ⟨al, leg, later, -, hleg, hlater, -⟩ := course_succ_ok h
    obtain ⟨step, -, -, -, -, -, hhanded⟩ := leg_ok hleg
    have hlaterStart : e 1 = leg.next.eps := by
      rw [hnext 0, hstart, hhanded]
      rfl
    exact ih (e := fun i => e (i + 1)) (by omega) hlaterStart (fun i => hnext (i + 1)) hrefused
      later hlater

/-- **A refused factor ends the run**, in any arithmetic: if the factor of target error `e j` is
refused, no `n > j` restarts return. -/
theorem Solver.restarts_stop {env : Environment (Except (Failure R)) R κ α} {n j : ℕ} (hj : j < n)
    {state : RestartState R κ α} (hstart : e 0 = state.eps)
    (hnext : ∀ i, e (i + 1) = s.nextError (e i)) (hrefused : rescale s (e j) = .error f)
    (i : ℕ) (out : RestartState R κ α × Trail R κ α) : restarts env s n i state ≠ .ok out := by
  intro h
  obtain ⟨legs, -, hlegs, -, -, -⟩ := restarts_ok h
  exact Schedule.course_refused hj hstart hnext hrefused legs hlegs

end Runs

end PrimalDual
