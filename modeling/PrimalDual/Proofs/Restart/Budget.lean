/-
  PrimalDual.Proofs.Restart.Budget
  ────────────────────────────────
  **THE STEP BUDGET AND THE RESCALING FACTOR.**

  In exact arithmetic, for options that passed the checks:

      stepBudget   N = ⌈2 C₁ root L / (tau upsilon)⌉,  root = √(C₂² + q)
      uncapped     al = 1 / (C₁ (delta + eps) / (root N) k)
      factor       the smaller of al and the cap

  With `k ≥ N` steps, a distance of at most `C₁ (delta + eps)` and a dual
  radius of at most `root`, this `al` balances the two terms of the bound of a
  restart so that their sum is at most the next target error
  (`balanced_bound_le`).
-/
import PrimalDual.Proofs.Inner.Scheme
import PrimalDual.Proofs.Restart.Checks
import PrimalDual.Solver.Rescaling

namespace PrimalDual

variable {m : Type → Type} {κ α : Type}

/-! ## §1. Options that passed the checks. -/

/-- What the checks of a caller's choice establish. -/
structure Options.Valid (o : Options m ℝ κ α) : Prop where
  C1_pos : 0 < o.C1
  C2_pos : 0 < o.C2
  upsilon_pos : 0 < o.upsilon
  upsilon_lt_one : o.upsilon < 1
  tau_pos : 0 < o.tau
  bound_pos : ∀ bound ∈ o.bound, 0 < bound

/-- Settings that pass their checks are valid options. -/
theorem Settings.check_valid {s : Settings m ℝ κ α} {o : Options m ℝ κ α}
    (h : s.check = .ok o) : o.Valid := by
  obtain ⟨-, h⟩ := Settings.check_eq_ok.1 h
  have hpos : ∀ a : ℝ, Control.le a Control.zero = false → 0 < a := by
    intro a ha
    rwa [Control.le_real, Control.zero_real, decide_eq_false_iff_not, not_le] at ha
  exact ⟨hpos _ h.C1, hpos _ h.C2, by simpa using h.upsilon_pos, by simpa using h.upsilon_lt_one,
    hpos _ h.tau, fun bound hb => hpos _ (h.bound bound hb)⟩

/-- In exact arithmetic nothing is undefined, so options in these ranges pass. -/
theorem Options.Valid.check {o : Options m ℝ κ α} (h : o.Valid)
    (hblock : o.analysis = none ↔ o.q = 0) : o.settings.check = .ok o := by
  have hle : ∀ a : ℝ, 0 < a → Control.le a Control.zero = false := by
    intro a ha
    rw [Control.le_real, Control.zero_real, decide_eq_false_iff_not, not_le]
    exact ha
  rw [Settings.check_eq_ok]
  exact ⟨rfl, {
    C1 := hle _ h.C1_pos
    C2 := hle _ h.C2_pos
    upsilon_pos := by simpa using h.upsilon_pos
    upsilon_lt_one := by simpa using h.upsilon_lt_one
    tau := hle _ h.tau_pos
    bound := fun bound hb => hle _ (h.bound_pos bound hb)
    analysis := hblock }⟩

/-! ## §2. The factor before its cap. -/

theorem Control.quotient_ok {a b c : ℝ} (h : Control.quotient a b = .ok c) :
    b ≠ 0 ∧ c = a / b := by
  unfold Control.quotient at h
  obtain ⟨hb, h⟩ := guard_ok h
  rw [Control.eq_real, Control.zero_real, decide_eq_false_iff_not] at hb
  exact ⟨hb, (Except.ok.inj h).symm⟩

namespace Rescaling

variable (o : Options m ℝ κ α) (q : ℕ) (eps delta : ℝ) (kIter : ℤ)

/-- `√(C₂² + q)`. -/
noncomputable def root : ℝ := √(o.C2 ^ 2 + q)

/-- The number of steps that a restart needs, for an operator bound `L`. -/
noncomputable def stepBudget (L : ℝ) : ℤ := ⌈2 * o.C1 * root o q * L / (o.tau * o.upsilon)⌉

/-- The rescaling factor of a restart before it is capped. -/
noncomputable def uncapped (o : Options m ℝ κ α) (q : Quantity ℝ) : Except (Failure ℝ) ℝ := do
  let root ← sharpnessRoot o.C2 q
  let needed ← neededSteps o root
  let beta ← Control.quotient (o.C1 * (delta + eps)) (root * (← Control.ofWhole needed))
  Control.quotient Control.one (beta * (← Control.ofWhole kIter))

/-- The factor is the uncapped factor, cut off at the cap. -/
theorem factor_eq (q : Quantity ℝ) :
    factor eps delta kIter o q = (min · maxRescale) <$> uncapped eps delta kIter o q := by
  have hcap : ∀ al : ℝ,
      (if Control.lt maxRescale al then maxRescale else al) = min al maxRescale := by
    intro al
    rw [Control.lt_real, min_def]
    by_cases h : al ≤ maxRescale
    · rw [if_pos h, if_neg (by simpa using h)]
    · rw [if_neg h, if_pos (by simpa using h)]
  unfold factor uncapped
  simp only [hcap, map_eq_pure_bind, bind_assoc]

variable {o q eps delta kIter}

theorem sharpnessRoot_whole : sharpnessRoot o.C2 (.whole q) = .ok (root o q) := by
  show (Control.square o.C2 >>= fun squared => Control.ofWhole (q : ℤ) >>= fun n =>
    Control.root (squared + n)) = _
  rw [Control.square_real, Control.ofWhole_real]
  show Control.root (o.C2 ^ 2 + ((q : ℤ) : ℝ)) = _
  rw [Int.cast_natCast, Control.root_real (by positivity)]
  rfl

/-- The steps that a restart needs are its budget. -/
theorem neededSteps_eq (ho : o.Valid) {L : ℝ} (hL : o.bound = some L) :
    neededSteps o (root o q) = .ok (stepBudget o q L) := by
  have hscale : o.tau * o.upsilon ≠ 0 := (mul_pos ho.tau_pos ho.upsilon_pos).ne'
  unfold neededSteps boundOf
  rw [hL]
  show (Control.quotient (Control.two * o.C1 * root o q * L) (o.tau * o.upsilon)
    >>= Control.ceiling) = _
  rw [Control.quotient_real _ hscale, Control.two_real]
  exact Control.ceiling_real _

theorem root_pos (ho : o.Valid) : 0 < root o q := by
  have hC := ho.C2_pos
  exact Real.sqrt_pos.2 (by positivity)

/-- A restart needs at least one step. -/
theorem stepBudget_pos (ho : o.Valid) {L : ℝ} (hL : o.bound = some L) : 0 < stepBudget o q L := by
  have hL₀ := ho.bound_pos L hL
  have hC₁ := ho.C1_pos
  have htau := ho.tau_pos
  have hupsilon := ho.upsilon_pos
  have hroot := root_pos (q := q) ho
  exact Int.ceil_pos.2 (by positivity)

/-- Only the last division can be refused. -/
theorem uncapped_eq (ho : o.Valid) {L : ℝ} (hL : o.bound = some L) :
    uncapped eps delta kIter o (.whole q)
      = Control.quotient 1 (o.C1 * (delta + eps) / (root o q * stepBudget o q L) * kIter) := by
  have hdivisor : root o q * (stepBudget o q L : ℝ) ≠ 0 :=
    mul_ne_zero (root_pos ho).ne' (Int.cast_ne_zero.2 (stepBudget_pos ho hL).ne')
  unfold uncapped
  rw [sharpnessRoot_whole]
  show (neededSteps o (root o q) >>= fun needed =>
    Control.quotient (o.C1 * (delta + eps)) (root o q * needed) >>= fun beta =>
      Control.quotient Control.one (beta * kIter)) = _
  rw [neededSteps_eq ho hL]
  show (Control.quotient (o.C1 * (delta + eps)) (root o q * stepBudget o q L) >>= fun beta =>
      Control.quotient Control.one (beta * kIter)) = _
  rw [Control.quotient_real _ hdivisor, Control.one_real]
  rfl

end Rescaling

/-! ## §3. The balance of the two terms. -/

/-- **The factor balances the bound of a restart.**  `d` is a primal distance, `R` a dual
one, and `e` the sum of noise level and target error. -/
theorem balanced_bound_le {C L tau upsilon root e al N k d R : ℝ} (hC : 0 < C) (hL : 0 < L)
    (htau : 0 < tau) (hupsilon : 0 < upsilon) (hroot : 0 < root)
    (hN : 2 * C * root * L / (tau * upsilon) ≤ N) (hk : N ≤ k) (hal : 0 < al)
    (hfactor : al = 1 / (C * e / (root * N) * k)) (hd : 0 ≤ d) (hde : d ≤ C * e)
    (hR : R ^ 2 ≤ root ^ 2) :
    L / (k * tau) * (al * d ^ 2 + R ^ 2 / al) ≤ upsilon * e := by
  have hN₀ : 0 < N := lt_of_lt_of_le (by positivity) hN
  have hk₀ : 0 < k := lt_of_lt_of_le hN₀ hk
  -- A target error that is not positive would not give a positive factor.
  have he : 0 < e := by
    by_contra hneg
    have hdivisor : C * e / (root * N) * k ≤ 0 :=
      mul_nonpos_of_nonpos_of_nonneg (div_nonpos_of_nonpos_of_nonneg
        (mul_nonpos_of_nonneg_of_nonpos hC.le (not_lt.1 hneg)) (by positivity)) hk₀.le
    linarith [one_div_nonpos.2 hdivisor]
  have hvalue : al = root * N / (C * e * k) := by
    rw [hfactor]
    field_simp
  have hprimal : al * d ^ 2 ≤ root * C * e * (N / k) := by
    calc al * d ^ 2
        ≤ al * (C * e) ^ 2 := mul_le_mul_of_nonneg_left (pow_le_pow_left₀ hd hde 2) hal.le
      _ = root * C * e * (N / k) := by
          rw [hvalue]
          field_simp
  have hdual : R ^ 2 / al ≤ root * C * e * (k / N) := by
    calc R ^ 2 / al
        ≤ root ^ 2 / al := div_le_div_of_nonneg_right hR hal.le
      _ = root * C * e * (k / N) := by
          rw [hvalue]
          field_simp
  -- With more steps than needed, the primal term is the smaller one.
  have hratio : N / k ≤ k / N := by
    rw [div_le_div_iff₀ hk₀ hN₀]
    exact mul_le_mul hk hk hN₀.le hk₀.le
  have hbudget : 2 * C * root * L / (tau * N) ≤ upsilon := by
    rw [div_le_iff₀ (by positivity)] at hN ⊢
    linarith
  calc L / (k * tau) * (al * d ^ 2 + R ^ 2 / al)
      ≤ L / (k * tau) * (root * C * e * (k / N) + root * C * e * (k / N)) := by
        refine mul_le_mul_of_nonneg_left (add_le_add ?_ hdual) (by positivity)
        exact hprimal.trans (mul_le_mul_of_nonneg_left hratio (by positivity))
    _ = 2 * C * root * L / (tau * N) * e := by
        field_simp
        ring
    _ ≤ upsilon * e := mul_le_mul_of_nonneg_right hbudget he.le

end PrimalDual
