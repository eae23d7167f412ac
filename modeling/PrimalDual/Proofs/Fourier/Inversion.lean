/-
  PrimalDual.Proofs.Fourier.Inversion
  ───────────────────────────────────
  **THE INVERSE TRANSFORM RESTORES A REAL TENSOR FROM ITS BINS.**

  Coefficients with real parts are complex numbers (`Coefficient.value`), and
  turning one by `j / n` multiplies it by a power of a root of unity, so each
  transform along an axis is a sum of powers (`value_spectrum`).  Both
  inversions rest on the sums of all powers of a root (`sum_root`):

      spectrum_inverse_forward    one of the complex axes, a factor `n`
      halfLines_halfBins          the last axis, of which `n/2 + 1` bins are kept

  The bins of the last axis that are not kept mirror those that are, in even
  and in odd lengths; `weight` counts a bin for itself and for its mirror
  image (`sum_weight`).  The factors are the lengths of the axes, and the
  share of the inverse takes their product out again (`inverseReal_bins`).
-/
import PrimalDual.Proofs.Fourier.Transform
import Mathlib.RingTheory.RootsOfUnity.Complex

namespace PrimalDual

open Tensor

/-! ## §1. Coefficients as complex numbers. -/

namespace Coefficient

/-- A coefficient with real parts as a complex number. -/
noncomputable def value : Coefficient ℝ →+ ℂ where
  toFun a := ⟨a.re, a.im⟩
  map_zero' := rfl
  map_add' _ _ := rfl

/-- A coefficient is determined by its complex value. -/
theorem value_injective : Function.Injective value := by
  intro a b h
  exact ext_parts (congrArg Complex.re h) (congrArg Complex.im h)

theorem value_mul (a b : Coefficient ℝ) : value (mul () a b) = value a * value b := rfl

theorem value_conj (a : Coefficient ℝ) : value (conj () a) = star (value a) := by
  refine Complex.ext rfl ?_
  show (Entry.zero () : ℝ) - a.im = -a.im
  rw [Entry.zero_exact, zero_sub]

end Coefficient

namespace Fourier

open Coefficient

/-! ## §2. Roots of unity. -/

/-- The turn by `1 / n`. -/
noncomputable def unitRoot (n : ℕ) : ℂ := Complex.exp (2 * Real.pi * Complex.I / n)

/-- The powers of the root are the cosines and sines of the table. -/
theorem unitRoot_pow (n j : ℕ) : unitRoot n ^ j = ⟨cosine n j, sine n j⟩ := by
  have hangle : (j : ℂ) * (2 * Real.pi * Complex.I / n)
      = ((2 * Real.pi * j / n : ℝ) : ℂ) * Complex.I := by
    push_cast
    ring
  unfold unitRoot
  rw [← Complex.exp_nat_mul, hangle]
  exact Complex.ext (Complex.exp_ofReal_mul_I_re _) (Complex.exp_ofReal_mul_I_im _)

/-- The root has the order of the length of the line. -/
theorem isPrimitiveRoot_unitRoot {n : ℕ} (hn : 0 < n) : IsPrimitiveRoot (unitRoot n) n :=
  Complex.isPrimitiveRoot_exp n hn.ne'

theorem star_unitRoot (n : ℕ) : star (unitRoot n) = (unitRoot n)⁻¹ := by
  refine (Complex.inv_eq_conj ?_).symm
  have hangle : 2 * Real.pi * Complex.I / n = ((2 * Real.pi / n : ℝ) : ℂ) * Complex.I := by
    push_cast
    ring
  unfold unitRoot
  rw [hangle, Complex.norm_exp_ofReal_mul_I]

/-- The root of unity by which a direction turns. -/
noncomputable def Direction.root (d : Direction) (n : ℕ) : ℂ :=
  match d with
  | .forward => (unitRoot n)⁻¹
  | .inverse => unitRoot n

theorem forward_root_pow (n j : ℕ) :
    Direction.forward.root n ^ j = ⟨cosine n j, -sine n j⟩ := by
  show (unitRoot n)⁻¹ ^ j = _
  rw [← star_unitRoot, ← star_pow, unitRoot_pow]
  rfl

/-- Turning a coefficient multiplies it by a power of the root. -/
theorem value_turned (d : Direction) (n j : ℕ) (a : Coefficient ℝ) :
    value (d.turned n j a) = value a * d.root n ^ j := by
  cases d with
  | forward =>
    rw [forward_root_pow]
    refine Complex.ext ?_ ?_
    · show a.re * _ + a.im * _ = a.re * _ - a.im * -_
      ring
    · show a.im * _ - a.re * _ = a.re * -_ + a.im * _
      ring
  | inverse =>
    show _ = value a * unitRoot n ^ j
    rw [unitRoot_pow]
    refine Complex.ext ?_ ?_
    · show a.re * _ + a.im * -_ = a.re * _ - a.im * _
      ring
    · show a.im * _ - a.re * -_ = a.re * _ + a.im * _
      ring

variable {n : ℕ}

/-- **The sums of all powers of a root.**  Places `l` and `c` of a circle meet only in
themselves. -/
theorem sum_root (hn : 0 < n) {c l : ℕ} (hc : c < n) (hl : l < n) :
    ∑ j ∈ Finset.range n, Direction.forward.root n ^ (l * j) * Direction.inverse.root n ^ (j * c)
      = if l = c then (n : ℂ) else 0 := by
  have hroot := isPrimitiveRoot_unitRoot hn
  have hne : unitRoot n ≠ 0 := hroot.ne_zero hn.ne'
  set q : ℂ := (unitRoot n)⁻¹ ^ l * unitRoot n ^ c with hq
  have hterm : ∀ j, Direction.forward.root n ^ (l * j) * Direction.inverse.root n ^ (j * c)
      = q ^ j := by
    intro j
    show (unitRoot n)⁻¹ ^ (l * j) * unitRoot n ^ (j * c) = _
    rw [hq, mul_pow, ← pow_mul, ← pow_mul, Nat.mul_comm j c]
  have hquotient : q = unitRoot n ^ c / unitRoot n ^ l := by
    rw [hq, inv_pow, div_eq_mul_inv, mul_comm]
  simp only [hterm]
  -- A geometric sum.  The root is primitive, so its ratio is 1 only for equal places.
  by_cases h : l = c
  · have hone : q = 1 := by rw [hquotient, h, div_self (pow_ne_zero c hne)]
    rw [if_pos h, hone]
    simp
  · have hone : q ≠ 1 := by
      rw [hquotient]
      intro heq
      exact h (hroot.pow_inj hl hc (eq_of_div_eq_one heq).symm)
    have hpow : q ^ n = 1 := by
      rw [hq, mul_pow, ← pow_mul, ← pow_mul, Nat.mul_comm l, Nat.mul_comm c, pow_mul, pow_mul,
        inv_pow, hroot.pow_eq_one, inv_one, one_pow, one_pow, one_mul]
    have hsum : (q - 1) * ∑ j ∈ Finset.range n, q ^ j = 0 := by
      rw [mul_geom_sum, hpow, sub_self]
    rw [if_neg h]
    exact (mul_eq_zero.1 hsum).resolve_left (sub_ne_zero.2 hone)

/-! ## §3. One axis. -/

/-- **The spectrum of a line is its discrete Fourier transform.** -/
theorem value_spectrum (d : Direction) (n p : ℕ) (v : ℕ → Coefficient ℝ) (i : ℕ) :
    value (spectrum d n p v i)
      = ∑ j ∈ Finset.range n, value (v (across n n p i j)) * d.root n ^ (j * (i / p % n)) := by
  unfold spectrum
  rw [map_sum]
  exact Finset.sum_congr rfl fun j _ => value_turned d n _ _

/-- The inverse along an axis restores what was transformed along it, times its length. -/
theorem spectrum_inverse_forward {B p : ℕ} (v : ℕ → Coefficient ℝ) {i : ℕ}
    (hi : i < B * n * p) :
    spectrum .inverse n p (spectrum .forward n p v) i = n • v i := by
  obtain ⟨x, b, c, -, hb, hc, hpos⟩ := exists_position hi
  have hn : 0 < n := by omega
  -- On the line of `i`, whose coordinate is `b`, the entries are known by their coordinates.
  have hline : ∀ l, across n n p i l = (x * n + l) * p + c := by
    intro l
    rw [hpos, across_position hb hc]
  have hcoordinate : i / p % n = b := by rw [hpos, position_coordinate hb hc]
  apply value_injective
  rw [value_spectrum, map_nsmul, hcoordinate]
  calc ∑ j ∈ Finset.range n, value (spectrum .forward n p v (across n n p i j))
        * Direction.inverse.root n ^ (j * b)
      = ∑ j ∈ Finset.range n, ∑ l ∈ Finset.range n, value (v (across n n p i l))
          * (Direction.forward.root n ^ (l * j) * Direction.inverse.root n ^ (j * b)) := by
        apply Finset.sum_congr rfl
        intro j hj
        have hj' := Finset.mem_range.1 hj
        rw [value_spectrum, Finset.sum_mul]
        apply Finset.sum_congr rfl
        intro l _
        rw [hline, hline, across_position hj' hc, position_coordinate hj' hc, mul_assoc]
    _ = ∑ l ∈ Finset.range n, value (v (across n n p i l)) * if l = b then (n : ℂ) else 0 := by
        rw [Finset.sum_comm]
        apply Finset.sum_congr rfl
        intro l hl
        rw [← Finset.mul_sum, sum_root hn hb (Finset.mem_range.1 hl)]
    _ = value (v (across n n p i b)) * n := by
        simp only [mul_ite, mul_zero]
        rw [Finset.sum_ite_eq' (Finset.range n) b, if_pos (Finset.mem_range.2 hb)]
    _ = n • value (v i) := by
        rw [hline, ← hpos, nsmul_eq_mul, mul_comm]

theorem spectrum_nsmul (d : Direction) (n p c : ℕ) (v : ℕ → Coefficient ℝ) :
    spectrum d n p (c • v) = c • spectrum d n p v := by
  funext i
  show ∑ j ∈ Finset.range n, d.turned n _ (c • v _) = c • ∑ j ∈ Finset.range n, _
  rw [← Finset.sum_nsmul]
  exact Finset.sum_congr rfl fun j _ => map_nsmul _ _ _

/-! ## §4. Several axes. -/

/-- A natural multiple may be transformed before or after. -/
theorem spectra_nsmul (d : Direction) (S axes : List ℕ) (c : ℕ) (v : ℕ → Coefficient ℝ) :
    spectra d S axes (c • v) = c • spectra d S axes v := by
  induction axes generalizing v with
  | nil => rfl
  | cons p axes ih =>
    show spectra d S axes (spectrum d _ _ (c • v)) = c • spectra d S axes _
    rw [spectrum_nsmul, ih]

/-- The inverses along several axes restore what was transformed along them, times their
lengths. -/
theorem spectra_inverse_forward {S axes : List ℕ} (h : Open S axes) (v : ℕ → Coefficient ℝ) :
    ∀ i < S.prod, spectra .inverse S axes (spectra .forward S axes v) i
      = (axes.map fun p => S.getD p 1).prod • v i := by
  rw [← spectra_reverse .forward h]
  -- The axis that was transformed last is restored first.
  induction axes with
  | nil => exact fun i _ => (one_nsmul _).symm
  | cons p axes ih =>
    intro i hi
    have hlast : spectra .forward S (p :: axes).reverse v
        = spectrum .forward (S.getD p 1) (stride S p) (spectra .forward S axes.reverse v) := by
      unfold spectra
      rw [List.reverse_cons, List.foldl_append]
      rfl
    have hrestored : ∀ i < S.prod, spectrum .inverse (S.getD p 1) (stride S p)
        (spectra .forward S (p :: axes).reverse v) i
          = (S.getD p 1 • spectra .forward S axes.reverse v) i := by
      intro i hi
      rw [hlast]
      rw [prod_axis (h.lt p (List.mem_cons_self ..))] at hi
      exact spectrum_inverse_forward _ hi
    show spectra .inverse S axes (spectrum .inverse _ _ _) i = _
    rw [spectra_congr h.tail hrestored i hi, spectra_nsmul, Pi.smul_apply, ih h.tail i hi,
      List.map_cons, List.prod_cons, mul_nsmul']

/-! ## §5. The last axis. -/

/-- The bins of a real line are the first ones of its transform. -/
theorem value_halfBins (n : ℕ) (y : ℕ → ℝ) (i : ℕ) : value (halfBins n y i)
    = ∑ j ∈ Finset.range n, (y (across (binCount n) n 1 i j) : ℂ)
      * Direction.forward.root n ^ (j * (i % binCount n)) := by
  simp only [forward_root_pow]
  refine Complex.ext ?_ ?_
  · show ∑ j ∈ Finset.range n, y (across (binCount n) n 1 i j) * cosine n (j * (i % binCount n)) = _
    rw [Complex.re_sum]
    apply Finset.sum_congr rfl
    intro j _
    rw [Complex.re_ofReal_mul]
  · show -∑ j ∈ Finset.range n, y (across (binCount n) n 1 i j) * sine n (j * (i % binCount n)) = _
    rw [Complex.im_sum, ← Finset.sum_neg_distrib]
    apply Finset.sum_congr rfl
    intro j _
    rw [Complex.im_ofReal_mul, mul_neg]

/-- A sum over half a circle, with weights, is the sum over the circle if the terms at the
same distance from place 0 are equal. -/
theorem sum_weight (hn : 0 < n) {f : ℕ → ℝ} (hf : ∀ b ≤ n, f (n - b) = f b) :
    ∑ b ∈ Finset.range (binCount n), weight n b * f b = ∑ b ∈ Finset.range n, f b := by
  have hfirst : (weight n 0 : ℝ) = 1 := if_pos (Or.inl rfl)
  have hpairs : ∑ i ∈ Finset.range (pairs n), weight n (i + 1) * f (i + 1)
      = ∑ i ∈ Finset.range (pairs n), (f (i + 1) + f (n - (i + 1))) := by
    apply Finset.sum_congr rfl
    intro i hi
    have hlt := Finset.mem_range.1 hi
    unfold pairs at hlt
    have htwo : (weight n (i + 1) : ℝ) = 2 := if_neg (by omega)
    rw [htwo, hf _ (pair_le hi), two_mul]
  unfold binCount
  rw [sum_half hn, sum_fold hn, hpairs, hfirst, one_mul]
  -- An even circle has a place opposite to 0, which is its own mirror image.
  by_cases heven : n % 2 = 0
  · have hlast : (weight n (n / 2) : ℝ) = 1 := if_pos (Or.inr (by omega))
    rw [if_pos heven, if_pos heven, hlast, one_mul]
  · rw [if_neg heven, if_neg heven]

/-- What bin `u` of a real line contributes to the entry `b` of the line. -/
noncomputable def echo (n : ℕ) (line : ℕ → ℝ) (b u : ℕ) : ℝ :=
  (∑ j ∈ Finset.range n, line j * cosine n (j * u)) * cosine n (u * b)
    + (∑ j ∈ Finset.range n, line j * sine n (j * u)) * sine n (u * b)

/-- The mirror image of a bin contributes as much as the bin. -/
theorem echo_mirror (hn : 0 < n) (line : ℕ → ℝ) (b : ℕ) {u : ℕ} (hu : u ≤ n) :
    echo n line b (n - u) = echo n line b u := by
  have hcos : ∀ j, (cosine n (j * (n - u)) : ℝ) = cosine n (j * u) := by
    intro j
    rw [Nat.mul_comm j, cosine_mirror hn hu, Nat.mul_comm]
  have hsin : ∀ j, (sine n (j * (n - u)) : ℝ) = -sine n (j * u) := by
    intro j
    rw [Nat.mul_comm j, sine_mirror hn hu, Nat.mul_comm]
  unfold echo
  simp only [hcos, hsin, cosine_mirror hn hu, sine_mirror hn hu, mul_neg, Finset.sum_neg_distrib,
    neg_mul, neg_neg]

/-- All bins together contribute the entry, times the length of the line. -/
theorem sum_echo (line : ℕ → ℝ) {b : ℕ} (hb : b < n) :
    ∑ u ∈ Finset.range n, echo n line b u = n * line b := by
  have hn : 0 < n := by omega
  -- An echo is a real part, and only the roots in it depend on the bin.
  have hre : ∀ u, echo n line b u = (∑ j ∈ Finset.range n, (line j : ℂ)
      * (Direction.forward.root n ^ (j * u) * Direction.inverse.root n ^ (u * b))).re := by
    intro u
    unfold echo
    simp only [Finset.sum_mul, ← Finset.sum_add_distrib, Complex.re_sum]
    apply Finset.sum_congr rfl
    intro j _
    rw [Complex.re_ofReal_mul, forward_root_pow]
    show _ = _ * (_ * unitRoot n ^ (u * b)).re
    rw [unitRoot_pow, Complex.mul_re]
    ring
  calc ∑ u ∈ Finset.range n, echo n line b u
      = (∑ j ∈ Finset.range n, (line j : ℂ) * if j = b then (n : ℂ) else 0).re := by
        simp only [hre, ← Complex.re_sum]
        rw [Finset.sum_comm]
        refine congrArg Complex.re (Finset.sum_congr rfl ?_)
        intro j hj
        rw [← Finset.mul_sum, sum_root hn hb (Finset.mem_range.1 hj)]
    _ = n * line b := by
        simp only [mul_ite, mul_zero]
        rw [Finset.sum_ite_eq' (Finset.range n) b, if_pos (Finset.mem_range.2 hb),
          Complex.re_ofReal_mul, Complex.natCast_re, mul_comm]

/-- The inverse along the last axis restores a real line from half of its bins, times its
length. -/
theorem halfLines_halfBins {B : ℕ} (y : ℕ → ℝ) {k : ℕ} (hk : k < B * n * 1) :
    halfLines n (halfBins n y) k = n * y k := by
  obtain ⟨x, b, c, -, hb, hc, hpos⟩ := exists_position hk
  have hn : 0 < n := by omega
  have hcoordinate : k % n = b := by
    rw [← Nat.div_one k, hpos, position_coordinate hb hc]
  calc halfLines n (halfBins n y) k
      = ∑ u ∈ Finset.range (binCount n),
          weight n u * echo n (fun j => y ((x * n + j) * 1 + c)) b u := by
        unfold halfLines
        apply Finset.sum_congr rfl
        intro u hu
        have hu' := Finset.mem_range.1 hu
        have hbin : ((x * binCount n + u) * 1 + c) % binCount n = u := by
          rw [← Nat.div_one ((x * binCount n + u) * 1 + c), position_coordinate hu' hc]
        -- Bin and entry lie on the same line, so both are known by their coordinates.
        unfold halfBins echo
        dsimp only
        rw [hpos, across_position hb hc, ← hpos, hcoordinate, hbin]
        simp only [across_position hu' hc]
        ring
    _ = ∑ u ∈ Finset.range n, echo n (fun j => y ((x * n + j) * 1 + c)) b u :=
        sum_weight hn fun u hu => echo_mirror hn _ b hu
    _ = n * y k := by
        rw [sum_echo _ hb, ← hpos]

theorem halfLines_nsmul (n c : ℕ) (v : ℕ → Coefficient ℝ) (k : ℕ) :
    halfLines n (c • v) k = c * halfLines n v k := by
  -- Multiples of a coefficient are taken by repeated addition, in each part on its own.
  have hre : ∀ a : Coefficient ℝ, (c • a).re = c * a.re := fun a =>
    (map_nsmul (⟨⟨Coefficient.re, rfl⟩, fun _ _ => rfl⟩ : Coefficient ℝ →+ ℝ) c a).trans
      (nsmul_eq_mul _ _)
  have him : ∀ a : Coefficient ℝ, (c • a).im = c * a.im := fun a =>
    (map_nsmul (⟨⟨Coefficient.im, rfl⟩, fun _ _ => rfl⟩ : Coefficient ℝ →+ ℝ) c a).trans
      (nsmul_eq_mul _ _)
  unfold halfLines
  rw [Finset.mul_sum]
  apply Finset.sum_congr rfl
  intro b _
  rw [Pi.smul_apply, hre, him]
  ring

/-! ## §6. Tensors. -/

variable {batch init : List ℕ}

/-- The axes that are transformed after the last one. -/
theorem prod_innerAxes (batch init : List ℕ) (n : ℕ) :
    ((innerAxes batch init).map fun p => (binShape batch init n).getD p 1).prod = init.prod := by
  have h : (init.zipIdx batch.length).map Prod.fst
      = ((innerAxes batch init).map fun p => ((binShape batch init n).getD p 1, p)).map Prod.fst :=
    congrArg (List.map Prod.fst) zipIdx_innerAxes
  rw [List.zipIdx_map_fst, List.map_map] at h
  exact congrArg List.prod h.symm

/-- **The real tensor with the bins of `v` has the entries of `v`.** -/
theorem inverseReal_bins {P : Tensor Unit (Coefficient ℝ)} (hP : P.shape = binShape batch init n)
    (hn : 0 < n) (hpos : ∀ m ∈ init, 0 < m) {v : ℕ → ℝ}
    (hbins : ∀ i < (binShape batch init n).prod, coefficientAt P i
      = spectra .forward (binShape batch init n) (innerAxes batch init) (halfBins n v) i) :
    (inverseReal (init ++ [n]) P).shape = batch ++ init ++ [n]
      ∧ ∀ k < (batch ++ init ++ [n]).prod, (inverseReal (init ++ [n]) P).entry k = v k := by
  have hopen : Open (binShape batch init n) (innerAxes batch init) := open_innerAxes hpos
  obtain ⟨hshape, hentry⟩ := inverseReal_at hP hn hpos
  have hrestored : ∀ i < (binShape batch init n).prod,
      spectra .inverse (binShape batch init n) (innerAxes batch init) (coefficientAt P) i
        = (init.prod • halfBins n v) i := by
    intro i hi
    rw [spectra_congr hopen hbins i hi, spectra_inverse_forward hopen _ i hi, prod_innerAxes]
    rfl
  -- Every axis, the last one too, has left its length as a factor.
  have hshare : (init.prod : ℝ) * n * share ℝ (init ++ [n]) = 1 := by
    have hinit : (init.prod : ℝ) ≠ 0 := Nat.cast_ne_zero.2 (List.prod_pos hpos).ne'
    have hlast : (n : ℝ) ≠ 0 := Nat.cast_ne_zero.2 hn.ne'
    show _ * (((1 : ℤ) : ℝ) / (((init ++ [n]).prod : ℤ) : ℝ)) = 1
    rw [List.prod_append, List.prod_singleton, Int.cast_natCast, Nat.cast_mul, Int.cast_one,
      mul_one_div, div_self (mul_ne_zero hinit hlast)]
  refine ⟨hshape, ?_⟩
  intro k hk
  rw [hentry k hk]
  rw [prod_last] at hk
  rw [prod_binShape] at hrestored
  rw [halfLines_congr hrestored hk, halfLines_nsmul, halfLines_halfBins v hk]
  calc (init.prod : ℝ) * (n * v k) * share ℝ (init ++ [n])
      = v k * (init.prod * n * share ℝ (init ++ [n])) := by ring
    _ = v k := by rw [hshare, mul_one]

end Fourier

end PrimalDual
