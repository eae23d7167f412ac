/-
  PrimalDual.Proofs.Restart.Checks
  ────────────────────────────────
  **WHAT THE CHECKS OF A CHOICE ESTABLISH.**

  A choice is checked number by number, and each check is a comparison with
  an end of a range:

      C1, C2, tau, bound     refused if  a ≤ 0
      upsilon                refused unless  0 < a < 1

  `Settings.accept_eq_ok` says that these, the table of output types and the
  rule for the analysis block are all that stands between a choice and its
  options, which state the choice again but for a dimension that was stated
  as a real number.  `Settings.check_eq_ok` says the same of the choices that
  can be used, which have an integer there.  On numbers of which none is
  undefined the two kinds of checks come to the same.  An undefined number is
  not below zero either: it passes the checks of the first kind
  (`Options.checked_iff_inRange`), and only those.
-/
import PrimalDual.Arithmetic.Machine
import PrimalDual.Proofs.Exact.Arithmetic
import PrimalDual.Solver.Options

namespace PrimalDual

/-! ## §1. Numbers in stated places. -/

/-- An output type is named by its number, as an integer. -/
theorem OutputType.ofNumber?_eq_some {R : Type} {given : Quantity R} {t : OutputType} :
    ofNumber? given = some t ↔ given = .whole t.number := by
  constructor
  · intro h
    cases given with
    | whole n =>
      have hn := List.find?_some h
      rw [eq_of_beq hn]
    | fractional r => cases h
  · rintro rfl
    exact ofNumber?_number t

section Settings

variable {m : Type → Type} {R κ α : Type} [Control R]

omit m κ α in
/-- An integer is a count if it is a natural number. -/
theorem Quantity.toNat?_whole_eq_ok {z : ℤ} {n : ℕ} :
    (Quantity.whole z : Quantity R).toNat? = .ok n ↔ z = n := by
  constructor
  · intro h
    unfold toNat? at h
    dsimp only at h
    split_ifs at h with hz
    cases h
    rw [Int.toNat_of_nonneg (by omega)]
  · rintro rfl
    exact toNat?_natCast n

/-- A real number is a count if it is a natural number. -/
theorem Quantity.toNat?_real {r : ℝ} {n : ℕ} :
    (Quantity.fractional r).toNat? = .ok n ↔ r = n := by
  unfold toNat?
  show (if (Control.eq (⌈r⌉ : ℝ) r && !Control.lt r Control.zero) = true then .ok ⌈r⌉.toNat
    else .error (.analysisDimension (.fractional r)) : Except (Failure ℝ) ℕ) = .ok n ↔ _
  rw [Control.eq_real, Control.lt_real, Control.zero_real]
  constructor
  · intro h
    split_ifs at h with hwhole
    cases h
    simp only [Bool.and_eq_true, decide_eq_true_eq, Bool.not_eq_true', decide_eq_false_iff_not,
      not_lt] at hwhole
    obtain ⟨hceil, hpos⟩ := hwhole
    have hnonneg : 0 ≤ ⌈r⌉ := Int.ceil_nonneg hpos
    rw [← Int.cast_natCast, Int.toNat_of_nonneg hnonneg]
    exact hceil.symm
  · rintro rfl
    simp

/-! ## §2. Options that passed the checks. -/

/-- The numbers of a choice as the checks compare them. -/
structure Options.Checked (o : Options m R κ α) : Prop where
  C1 : Control.le o.C1 Control.zero = false
  C2 : Control.le o.C2 Control.zero = false
  upsilon_pos : Control.lt Control.zero o.upsilon = true
  upsilon_lt_one : Control.lt o.upsilon Control.one = true
  tau : Control.le o.tau Control.zero = false
  bound : ∀ bound ∈ o.bound, Control.le bound Control.zero = false
  /-- The analysis operator and its dimension come together or not at all. -/
  analysis : o.analysis = none ↔ o.q = 0

/-- The last checks: that of the dimension, and those that pair it with the operator. -/
theorem Settings.checkBlock_eq_ok {q : Quantity R} {analysis : Option (Representation m R κ α)}
    {f : ℕ → Options m R κ α} {o : Options m R κ α} :
    (q.toNat? >>= fun n =>
        if (analysis.isSome && n == 0) = true then .error .analysisDimensionMissing
        else if (analysis.isNone && n != 0) = true then .error (.analysisOperatorMissing q)
        else .ok (f n)) = .ok o
      ↔ ∃ n : ℕ, q.toNat? = .ok n ∧ (analysis = none ↔ n = 0) ∧ f n = o := by
  constructor
  · intro h
    obtain ⟨n, hn, h⟩ := bind_eq_ok.1 h
    obtain ⟨hsome, h⟩ := guard_ok h
    obtain ⟨hnone, h⟩ := guard_ok h
    refine ⟨n, hn, ?_, Except.ok.inj h⟩
    cases analysis with
    | none => simpa using hnone
    | some rep => simpa using hsome
  · rintro ⟨n, hq, hanalysis, hf⟩
    apply bind_returns hq
    rw [← hf]
    cases analysis with
    | none => simp [hanalysis.1 rfl]
    | some rep =>
      have hn : n ≠ 0 := fun hn => nomatch hanalysis.2 hn
      simp [hn]

/-- **A choice is accepted if it states numbers that pass every check**, and a dimension that
is a natural number. -/
theorem Settings.accept_eq_ok {s : Settings m R κ α} {o : Options m R κ α} :
    s.accept = .ok o
      ↔ s = { o.settings with q := s.q } ∧ s.q.toNat? = .ok o.q ∧ o.Checked := by
  constructor
  · intro h
    rcases s with ⟨_ | C1, _ | C2, store, type, upsilon, bound, tau, display, error, analysis, q⟩
    · cases h
    · cases h
    · cases h
    · simp only [accept, bind, Except.bind, pure, Except.pure, throw, throwThe,
        MonadExceptOf.throw] at h
      obtain ⟨hsharp, h⟩ := guard_ok h
      split at h
      · rename_i t htype
        obtain ⟨hrate, h⟩ := guard_ok h
        obtain ⟨htau, h⟩ := guard_ok h
        -- The bound is checked where it is set; the checks after it are the same in both cases.
        have hbound : (∀ b ∈ bound, Control.le b Control.zero = false)
            ∧ ∃ n : ℕ, q.toNat? = .ok n ∧ (analysis = none ↔ n = 0)
            ∧ ⟨C1, C2, store, t, upsilon, bound, tau, display, error, analysis, n⟩ = o := by
          cases bound with
          | none =>
            refine ⟨?_, checkBlock_eq_ok.1 h⟩
            intro b hb
            cases hb
          | some b =>
            obtain ⟨hb, h⟩ := guard_ok h
            exact ⟨fun b' hb' => Option.some.inj hb' ▸ hb, checkBlock_eq_ok.1 h⟩
        obtain ⟨hpositive, n, hn, hanalysis, rfl⟩ := hbound
        rw [Bool.or_eq_false_iff] at hsharp
        rw [Bool.not_eq_false', Bool.and_eq_true] at hrate
        refine ⟨?_, hn, hsharp.1, hsharp.2, hrate.1, hrate.2, htau, hpositive, hanalysis⟩
        rw [OutputType.ofNumber?_eq_some.1 htype]
        rfl
      · cases h
  · rintro ⟨hs, hn, h⟩
    have hblock := checkBlock_eq_ok (f := fun n => { o with q := n }).2
      ⟨o.q, hn, h.analysis, rfl⟩
    rw [hs]
    rcases o with ⟨C1, C2, store, t, upsilon, bound, tau, display, error, analysis, q⟩
    simp only [accept, Options.settings, bind, Except.bind, pure, Except.pure, throw, throwThe,
      MonadExceptOf.throw, OutputType.ofNumber?_number, h.C1, h.C2, h.upsilon_pos,
      h.upsilon_lt_one, h.tau, Bool.or_self, Bool.and_self, Bool.not_true, Bool.false_eq_true,
      if_false]
    cases bound with
    | none => exact hblock
    | some b =>
      simp only [h.bound b rfl, Bool.false_eq_true, if_false]
      exact hblock

/-- **Options are the settings that they state, with every check passed.** -/
theorem Settings.check_eq_ok {s : Settings m R κ α} {o : Options m R κ α} :
    s.check = .ok o ↔ s = o.settings ∧ o.Checked := by
  constructor
  · intro h
    cases hq : s.q with
    | whole z =>
      rw [check_of_whole hq] at h
      obtain ⟨hs, hn, hchecked⟩ := accept_eq_ok.1 h
      rw [hq] at hs hn
      rw [Quantity.toNat?_whole_eq_ok] at hn
      subst hn
      exact ⟨hs, hchecked⟩
    | fractional r =>
      -- Accepted or not, no options are made of it.
      unfold check at h
      rw [hq] at h
      obtain ⟨_, -, h⟩ := bind_eq_ok.1 h
      cases h
  · rintro ⟨rfl, h⟩
    have hq : o.settings.q = .whole o.q := rfl
    rw [check_of_whole hq, accept_eq_ok]
    exact ⟨rfl, Quantity.toNat?_natCast o.q, h⟩

/-- A dimension that is stated as a real number may be accepted, but no run can use it. -/
theorem Settings.check_of_fractional {s : Settings m R κ α} {o : Options m R κ α} {r : R}
    (hq : s.q = .fractional r) (h : s.accept = .ok o) : s.check = .error .fractionalPosition := by
  unfold check
  rw [hq, h]
  rfl

end Settings

/-! ## §3. Ranges. -/

/-- Comparisons with zero.  A number is negative, zero or positive, or it is undefined and
every comparison of it is false. -/
class Control.Signed (R : Type) [Control R] : Prop where
  le_zero : ∀ a : R, Control.le a Control.zero = (!Control.isNaN a && !Control.lt Control.zero a)
  lt_zero : ∀ a : R, Control.lt a Control.zero = (!Control.isNaN a && !Control.le Control.zero a)

namespace Control

instance : Signed ℝ where
  le_zero a := by
    rw [le_real, lt_real]
    show decide (a ≤ zero) = !decide (zero < a)
    rw [← decide_not, decide_eq_decide, not_lt]
  lt_zero a := by
    rw [le_real, lt_real]
    show decide (a < zero) = !decide (zero ≤ a)
    rw [← decide_not, decide_eq_decide, not_le]

section Doubles

open Float.Model

/-- An unpacked float is at most zero if it is a number that zero is not below. -/
theorem le_zero_model (s : UnpackedFloat.Sign) (u : UnpackedFloat) :
    u.le (.zero s) = (!u.isNaN && !UnpackedFloat.lt (.zero s) u) := by
  cases u with
  | notANumber => rfl
  | infinity t => cases t <;> rfl
  | zero t => rfl
  | finite t m e h => cases t <;> rfl

theorem lt_zero_model (s : UnpackedFloat.Sign) (u : UnpackedFloat) :
    u.lt (.zero s) = (!u.isNaN && !UnpackedFloat.le (.zero s) u) := by
  cases u with
  | notANumber => rfl
  | infinity t => cases t <;> rfl
  | zero t => rfl
  | finite t m e h => cases t <;> rfl

/-- Floats are compared as they are unpacked. -/
theorem le_float (a b : Float) : le a b = a.toModel.unpack.le b.toModel.unpack := by
  show decide (decide (a.toModel.unpack.le b.toModel.unpack = true) = true) = _
  rw [Bool.decide_eq_true, Bool.decide_eq_true]

theorem lt_float (a b : Float) : lt a b = a.toModel.unpack.lt b.toModel.unpack := by
  show decide (decide (a.toModel.unpack.lt b.toModel.unpack = true) = true) = _
  rw [Bool.decide_eq_true, Bool.decide_eq_true]

theorem zero_float : (zero : Float).toModel.unpack = .zero .positive := rfl

instance : Signed Float where
  le_zero a := by
    rw [le_float, lt_float, zero_float]
    exact le_zero_model .positive a.toModel.unpack
  lt_zero a := by
    rw [le_float, lt_float, zero_float]
    exact lt_zero_model .positive a.toModel.unpack

end Doubles

variable {R : Type} [Control R]

/-- Greater than zero, or undefined. -/
def PositiveIfDefined (a : R) : Prop := isNaN a = true ∨ lt zero a = true

/-- Zero or greater, or undefined. -/
def NonnegativeIfDefined (a : R) : Prop := isNaN a = true ∨ le zero a = true

variable [Signed R]

/-- What passes the check of a positive number is positive, or undefined. -/
theorem le_zero_eq_false {a : R} : le a zero = false ↔ PositiveIfDefined a := by
  unfold PositiveIfDefined
  rw [Signed.le_zero, Bool.and_eq_false_iff, Bool.not_eq_false', Bool.not_eq_false']

/-- What passes the check of a tolerance is not negative, or undefined. -/
theorem lt_zero_eq_false {a : R} : lt a zero = false ↔ NonnegativeIfDefined a := by
  unfold NonnegativeIfDefined
  rw [Signed.lt_zero, Bool.and_eq_false_iff, Bool.not_eq_false', Bool.not_eq_false']

end Control

section Ranges

variable {m : Type → Type} {R κ α : Type} [Control R]

/-- The numbers of a choice are in their ranges, as far as they are defined. -/
structure Options.InRange (o : Options m R κ α) : Prop where
  C1 : Control.PositiveIfDefined o.C1
  C2 : Control.PositiveIfDefined o.C2
  upsilon_pos : Control.lt Control.zero o.upsilon = true
  upsilon_lt_one : Control.lt o.upsilon Control.one = true
  tau : Control.PositiveIfDefined o.tau
  bound : ∀ bound ∈ o.bound, Control.PositiveIfDefined bound
  analysis : o.analysis = none ↔ o.q = 0

/-- **The checks are passed by the numbers in range, and by undefined ones.** -/
theorem Options.checked_iff_inRange [Control.Signed R] {o : Options m R κ α} :
    o.Checked ↔ o.InRange := by
  constructor
  · intro h
    exact ⟨Control.le_zero_eq_false.1 h.C1, Control.le_zero_eq_false.1 h.C2, h.upsilon_pos,
      h.upsilon_lt_one, Control.le_zero_eq_false.1 h.tau,
      fun b hb => Control.le_zero_eq_false.1 (h.bound b hb), h.analysis⟩
  · intro h
    exact ⟨Control.le_zero_eq_false.2 h.C1, Control.le_zero_eq_false.2 h.C2, h.upsilon_pos,
      h.upsilon_lt_one, Control.le_zero_eq_false.2 h.tau,
      fun b hb => Control.le_zero_eq_false.2 (h.bound b hb), h.analysis⟩

end Ranges

end PrimalDual
