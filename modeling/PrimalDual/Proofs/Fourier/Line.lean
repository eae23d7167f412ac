/-
  PrimalDual.Proofs.Fourier.Line
  ──────────────────────────────
  **THE TRANSFORMS OF ONE LINE IN EXACT ARITHMETIC.**

  In exact arithmetic a line is transformed in one stage, and the folded sums
  of the short transforms are the sums that define a discrete Fourier
  transform:

      realBins_entry      Σⱼ (cos - i sin)(j b / n) · line j
      complexBins_entry   Σⱼ (cos ∓ i sin)(j b / n) · line j
      realLine_entry      Σ_b weight b · Re ((cos + i sin)(b j / n) · line b)

  The last sum counts the bins 1 … twice, for themselves and for their mirror
  images, and the bins that are their own mirror image once (`weight`).
  Factors that vanish are left out of the short transforms; in exact
  arithmetic that changes nothing (`times_cos`, `times_sin`).
-/
import PrimalDual.Proofs.Exact.Arithmetic

namespace PrimalDual

variable {𝕜 : Type} [RCLike 𝕜]

/-! ## §1. Coefficients. -/

namespace Coefficient

@[ext] theorem ext_parts {α : Type} {a b : Coefficient α} (hre : a.re = b.re) (him : a.im = b.im) :
    a = b := by
  cases a
  cases b
  cases hre
  cases him
  rfl

noncomputable instance : Zero (Coefficient 𝕜) := ⟨⟨0, 0⟩⟩

noncomputable instance : Add (Coefficient 𝕜) := ⟨fun a b => ⟨a.re + b.re, a.im + b.im⟩⟩

/-- In exact arithmetic coefficients are added part by part. -/
noncomputable instance : AddCommMonoid (Coefficient 𝕜) where
  add_assoc a b c := ext_parts (add_assoc _ _ _) (add_assoc _ _ _)
  zero_add a := ext_parts (zero_add _) (zero_add _)
  add_zero a := ext_parts (add_zero _) (add_zero _)
  add_comm a b := ext_parts (add_comm _ _) (add_comm _ _)
  nsmul := nsmulRec

theorem zero_eq (k : Unit) : (Coefficient.zero k : Coefficient 𝕜) = 0 :=
  ext_parts (Entry.zero_exact k) (Entry.zero_exact k)

theorem re_sum {ι : Type} (s : Finset ι) (f : ι → Coefficient 𝕜) :
    (∑ i ∈ s, f i).re = ∑ i ∈ s, (f i).re :=
  map_sum (⟨⟨Coefficient.re, rfl⟩, fun _ _ => rfl⟩ : Coefficient 𝕜 →+ 𝕜) f s

theorem im_sum {ι : Type} (s : Finset ι) (f : ι → Coefficient 𝕜) :
    (∑ i ∈ s, f i).im = ∑ i ∈ s, (f i).im :=
  map_sum (⟨⟨Coefficient.im, rfl⟩, fun _ _ => rfl⟩ : Coefficient 𝕜 →+ 𝕜) f s

/-- A running sum of coefficients is the sum. -/
theorem sumFrom_exact (k : Unit) (start : Coefficient 𝕜) (f : ℕ → Coefficient 𝕜) (n : ℕ) :
    sumFrom k start f n = start + ∑ i ∈ Finset.range n, f i := by
  induction n with
  | zero => exact (add_zero start).symm
  | succ n ih =>
    rw [sumFrom, ih, Finset.sum_range_succ, ← add_assoc]
    rfl

/-- A coefficient multiplied by `c - i s`. -/
noncomputable def turned (c s : 𝕜) : Coefficient 𝕜 →+ Coefficient 𝕜 where
  toFun a := ⟨a.re * c + a.im * s, a.im * c - a.re * s⟩
  map_zero' := ext_parts (by show (0 : 𝕜) * c + 0 * s = 0; ring)
    (by show (0 : 𝕜) * c - 0 * s = 0; ring)
  map_add' a b := ext_parts
    (by show (a.re + b.re) * c + (a.im + b.im) * s = a.re * c + a.im * s + (b.re * c + b.im * s)
        ring)
    (by show (a.im + b.im) * c - (a.re + b.re) * s = a.im * c - a.re * s + (b.im * c - b.re * s)
        ring)

/-- Two turns may be taken in either order. -/
theorem turned_comm (c s c' s' : 𝕜) (a : Coefficient 𝕜) :
    turned c s (turned c' s' a) = turned c' s' (turned c s a) :=
  ext_parts
    (by show (a.re * c' + a.im * s') * c + (a.im * c' - a.re * s') * s
          = (a.re * c + a.im * s) * c' + (a.im * c - a.re * s) * s'
        ring)
    (by show (a.im * c' - a.re * s') * c - (a.re * c' + a.im * s') * s
          = (a.im * c - a.re * s) * c' - (a.re * c + a.im * s) * s'
        ring)

end Coefficient

theorem Entry.sumFrom_exact (k : Unit) (start : 𝕜) (f : ℕ → 𝕜) (n : ℕ) :
    Entry.sumFrom k start f n = start + ∑ i ∈ Finset.range n, f i := by
  induction n with
  | zero => exact (add_zero start).symm
  | succ n ih =>
    rw [Entry.sumFrom, ih, Finset.sum_range_succ, ← add_assoc]
    rfl

namespace Fourier

/-! ## §2. Cosines and sines. -/

/-- The cosine of the fraction `j / n` of a turn. -/
noncomputable def cosine (n j : ℕ) : 𝕜 := (Real.cos (2 * Real.pi * j / n) : ℝ)

/-- The sine of the fraction `j / n` of a turn. -/
noncomputable def sine (n j : ℕ) : 𝕜 := (Real.sin (2 * Real.pi * j / n) : ℝ)

theorem isSelfAdjoint_cosine (n j : ℕ) : IsSelfAdjoint (cosine n j : 𝕜) := RCLike.conj_ofReal _

theorem isSelfAdjoint_sine (n j : ℕ) : IsSelfAdjoint (sine n j : 𝕜) := RCLike.conj_ofReal _

variable {n : ℕ}

/-- Whole turns do not count. -/
theorem angle_mod (hn : 0 < n) (j : ℕ) :
    2 * Real.pi * j / n = 2 * Real.pi * (j % n : ℕ) / n + (j / n : ℕ) * (2 * Real.pi) := by
  have hn' : (n : ℝ) ≠ 0 := by exact_mod_cast hn.ne'
  have hj : (j : ℝ) = n * (j / n : ℕ) + (j % n : ℕ) := by
    exact_mod_cast (Nat.div_add_mod j n).symm
  field_simp
  rw [hj, add_comm]

/-- Turns are counted modulo the length of the line. -/
theorem cosine_mod (hn : 0 < n) (j : ℕ) : (cosine n (j % n) : 𝕜) = cosine n j := by
  unfold cosine
  rw [angle_mod hn j, Real.cos_add_nat_mul_two_pi]

theorem sine_mod (hn : 0 < n) (j : ℕ) : (sine n (j % n) : 𝕜) = sine n j := by
  unfold sine
  rw [angle_mod hn j, Real.sin_add_nat_mul_two_pi]

/-- Mirrored positions stand at opposite angles. -/
theorem angle_mirror (hn : 0 < n) {j : ℕ} (hj : j ≤ n) (b : ℕ) :
    2 * Real.pi * ((n - j) * b : ℕ) / n = b * (2 * Real.pi) - 2 * Real.pi * (j * b : ℕ) / n := by
  have hn' : (n : ℝ) ≠ 0 := by exact_mod_cast hn.ne'
  rw [Nat.cast_mul, Nat.cast_sub hj, Nat.cast_mul]
  field_simp

/-- The cosine of a mirrored position is the same. -/
theorem cosine_mirror (hn : 0 < n) {j : ℕ} (hj : j ≤ n) (b : ℕ) :
    (cosine n ((n - j) * b) : 𝕜) = cosine n (j * b) := by
  unfold cosine
  rw [angle_mirror hn hj, Real.cos_nat_mul_two_pi_sub]

/-- The sine of a mirrored position is the opposite one. -/
theorem sine_mirror (hn : 0 < n) {j : ℕ} (hj : j ≤ n) (b : ℕ) :
    (sine n ((n - j) * b) : 𝕜) = -sine n (j * b) := by
  unfold sine
  rw [angle_mirror hn hj, Real.sin_nat_mul_two_pi_sub, RCLike.ofReal_neg]

theorem cosine_zero (n : ℕ) : (cosine n 0 : 𝕜) = 1 := by
  unfold cosine
  rw [Nat.cast_zero, mul_zero, zero_div, Real.cos_zero, RCLike.ofReal_one]

/-- The sine vanishes at whole and half turns. -/
theorem sine_eq_zero (hn : 0 < n) {j : ℕ} (h : 2 * j % n = 0) : (sine n j : 𝕜) = 0 := by
  obtain ⟨k, hk⟩ := Nat.dvd_of_mod_eq_zero h
  have hn' : (n : ℝ) ≠ 0 := by exact_mod_cast hn.ne'
  have hk' : (2 : ℝ) * j = n * k := by exact_mod_cast hk
  have hangle : 2 * Real.pi * j / n = k * Real.pi := by
    rw [div_eq_iff hn']
    calc 2 * Real.pi * j = 2 * j * Real.pi := by ring
      _ = k * Real.pi * n := by rw [hk']; ring
  unfold sine
  rw [hangle, Real.sin_nat_mul_pi, RCLike.ofReal_zero]

theorem sine_start (hn : 0 < n) (b : ℕ) : (sine n (0 * b) : 𝕜) = 0 :=
  sine_eq_zero hn (by rw [Nat.zero_mul, Nat.zero_mod])

/-- At the place opposite to place 0 every multiple is a whole or half turn. -/
theorem sine_opposite (hn : 0 < n) (heven : n % 2 = 0) (b : ℕ) : (sine n (n / 2 * b) : 𝕜) = 0 := by
  refine sine_eq_zero hn ?_
  rw [← Nat.mul_assoc, Nat.mul_div_cancel' (Nat.dvd_of_mod_eq_zero heven), Nat.mul_mod_right]

/-- The cosine vanishes at one and at three quarters of a turn. -/
theorem cosine_eq_zero (hn : 0 < n) {j : ℕ} (h : 4 * j = n ∨ 4 * j = 3 * n) :
    (cosine n j : 𝕜) = 0 := by
  have hn' : (n : ℝ) ≠ 0 := by exact_mod_cast hn.ne'
  unfold cosine
  obtain h | h := h
  · have hj : (4 : ℝ) * j = n := by exact_mod_cast h
    have hangle : 2 * Real.pi * j / n = Real.pi / 2 := by
      rw [div_eq_iff hn', ← hj]
      ring
    rw [hangle, Real.cos_pi_div_two, RCLike.ofReal_zero]
  · have hj : (4 : ℝ) * j = 3 * n := by exact_mod_cast h
    have hangle : 2 * Real.pi * j / n = Real.pi + Real.pi / 2 := by
      rw [div_eq_iff hn']
      linear_combination (Real.pi / 2) * hj
    rw [hangle, Real.cos_add, Real.cos_pi_div_two, Real.sin_pi, mul_zero, zero_mul, sub_zero,
      RCLike.ofReal_zero]

/-- A turn from the table. -/
theorem turn_turns (hn : 0 < n) (j : ℕ) : turn (turns () n : Array (Turn 𝕜)) j
    = ⟨if 4 * (j % n) = n ∨ 4 * (j % n) = 3 * n then none else some (cosine n (j % n)),
      if 2 * (j % n) % n = 0 then none else some (sine n (j % n))⟩ := by
  unfold turn turns
  rw [Array.size_ofFn, Array.getD_eq_getD_getElem?, Array.getElem?_ofFn,
    dif_pos (Nat.mod_lt j hn)]
  rfl

/-- A multiple by the table of turns is one by the cosine. -/
theorem times_cos (hn : 0 < n) (j : ℕ) (a : 𝕜) :
    times () (turn (turns () n) j).cos a = a * cosine n j := by
  rw [turn_turns hn]
  by_cases h : 4 * (j % n) = n ∨ 4 * (j % n) = 3 * n
  · rw [← cosine_mod hn j, cosine_eq_zero hn h, mul_zero]
    show times () (if _ then none else _) a = 0
    rw [if_pos h]
    exact Entry.zero_exact ()
  · rw [← cosine_mod hn j]
    show times () (if _ then none else _) a = _
    rw [if_neg h]
    rfl

theorem times_sin (hn : 0 < n) (j : ℕ) (a : 𝕜) :
    times () (turn (turns () n) j).sin a = a * sine n j := by
  rw [turn_turns hn]
  by_cases h : 2 * (j % n) % n = 0
  · rw [← sine_mod hn j, sine_eq_zero hn h, mul_zero]
    show times () (if _ then none else _) a = 0
    rw [if_pos h]
    exact Entry.zero_exact ()
  · rw [← sine_mod hn j]
    show times () (if _ then none else _) a = _
    rw [if_neg h]
    rfl

/-! ## §3. Folded sums. -/

section Fold

variable {M : Type*} [AddCommMonoid M]

/-- Beside the pairs there is place 0 and, on an even circle, the place opposite to it. -/
theorem eq_two_mul_pairs (hn : 0 < n) : n = 2 * pairs n + 1 ∨ n = 2 * pairs n + 2 := by
  unfold pairs
  omega

/-- A sum over a circle: place 0, the place opposite to it if there is one, and the
pairs of places at the same distance from place 0. -/
theorem sum_fold (hn : 0 < n) (g : ℕ → M) : ∑ j ∈ Finset.range n, g j
    = (if n % 2 = 0 then g 0 + g (n / 2) else g 0)
      + ∑ i ∈ Finset.range (pairs n), (g (i + 1) + g (n - (i + 1))) := by
  have hm := eq_two_mul_pairs hn
  generalize pairs n = m at hm ⊢
  -- The places beyond the middle are counted back from the last one.
  have hback : ∀ k, ∑ i ∈ Finset.range m, g (k + i) = ∑ i ∈ Finset.range m, g (k + (m - 1 - i)) :=
    fun k => (Finset.sum_range_reflect (fun i => g (k + i)) m).symm
  rw [Finset.sum_add_distrib]
  obtain rfl | rfl := hm
  · rw [if_neg (by omega), show 2 * m + 1 = (m + 1) + m by omega, Finset.sum_range_add,
      Finset.sum_range_succ', hback]
    rw [add_comm (∑ i ∈ Finset.range m, g (i + 1)) (g 0), add_assoc]
    refine congrArg (fun t => g 0 + (_ + t)) (Finset.sum_congr rfl ?_)
    intro i hi
    have hi' := Finset.mem_range.1 hi
    rw [show m + 1 + (m - 1 - i) = m + 1 + m - (i + 1) by omega]
  · rw [if_pos (by omega), show (2 * m + 2) / 2 = m + 1 by omega,
      show 2 * m + 2 = (m + 1 + 1) + m by omega, Finset.sum_range_add, Finset.sum_range_succ,
      Finset.sum_range_succ', hback]
    rw [add_comm (∑ i ∈ Finset.range m, g (i + 1)) (g 0), add_assoc (g 0), add_assoc (g 0),
      add_comm (∑ i ∈ Finset.range m, g (i + 1)) (g (m + 1)), add_assoc (g (m + 1)), ← add_assoc (g 0)]
    refine congrArg (fun t => g 0 + g (m + 1) + (_ + t)) (Finset.sum_congr rfl ?_)
    intro i hi
    have hi' := Finset.mem_range.1 hi
    rw [show m + 1 + 1 + (m - 1 - i) = m + 1 + 1 + m - (i + 1) by omega]

/-- A sum over half a circle. -/
theorem sum_half (hn : 0 < n) (g : ℕ → M) : ∑ b ∈ Finset.range (n / 2 + 1), g b
    = (if n % 2 = 0 then g 0 + g (n / 2) else g 0) + ∑ i ∈ Finset.range (pairs n), g (i + 1) := by
  have hm := eq_two_mul_pairs hn
  generalize pairs n = m at hm ⊢
  obtain rfl | rfl := hm
  · rw [if_neg (by omega), show (2 * m + 1) / 2 = m by omega, Finset.sum_range_succ', add_comm]
  · rw [if_pos (by omega), show (2 * m + 2) / 2 = m + 1 by omega, Finset.sum_range_succ,
      Finset.sum_range_succ', add_comm (∑ i ∈ Finset.range m, g (i + 1)) (g 0), add_assoc, add_assoc,
      add_comm (g (m + 1))]

end Fold

/-! ## §4. Short transforms. -/

section Short

/-- A position that has a mirror image is on the line. -/
theorem pair_le {i : ℕ} (hi : i ∈ Finset.range (pairs n)) : i + 1 ≤ n := by
  have hi' := Finset.mem_range.1 hi
  unfold pairs at hi'
  omega

/-- **The sum over mirrored pairs** is the sum over the whole line. -/
theorem cosines_exact (hn : 0 < n) (line : ℕ → 𝕜) (b : ℕ) :
    unpaired () n (turns () n) line b + ∑ i ∈ Finset.range (pairs n),
        times () (turn (turns () n) ((i + 1) * b)).cos (line (i + 1) + line (n - (i + 1)))
      = ∑ j ∈ Finset.range n, line j * cosine n (j * b) := by
  have hunpaired : unpaired () n (turns () n) line b = if n % 2 = 0 then
      line 0 * cosine n (0 * b) + line (n / 2) * cosine n (n / 2 * b)
      else line 0 * cosine n (0 * b) := by
    unfold unpaired
    rw [times_cos hn, Nat.zero_mul, cosine_zero, mul_one]
    rfl
  rw [sum_fold hn, hunpaired]
  refine congrArg (_ + ·) (Finset.sum_congr rfl ?_)
  intro i hi
  rw [times_cos hn, cosine_mirror hn (pair_le hi), add_mul]

/-- The sine vanishes at place 0 and at the place opposite to it, so only pairs count. -/
theorem sines_exact (hn : 0 < n) (line : ℕ → 𝕜) (b : ℕ) :
    ∑ i ∈ Finset.range (pairs n),
        times () (turn (turns () n) ((i + 1) * b)).sin (line (i + 1) - line (n - (i + 1)))
      = ∑ j ∈ Finset.range n, line j * sine n (j * b) := by
  have hunpaired : (if n % 2 = 0 then line 0 * sine n (0 * b) + line (n / 2) * sine n (n / 2 * b)
      else line 0 * sine n (0 * b)) = 0 := by
    by_cases heven : n % 2 = 0
    · rw [if_pos heven, sine_start hn, sine_opposite hn heven, mul_zero, mul_zero, add_zero]
    · rw [if_neg heven, sine_start hn, mul_zero]
  rw [sum_fold hn, hunpaired, zero_add]
  apply Finset.sum_congr rfl
  intro i hi
  rw [times_sin hn, sine_mirror hn (pair_le hi)]
  ring

/-- A bin of a real line. -/
theorem realBin_exact (hn : 0 < n) (line : ℕ → 𝕜) (b : ℕ) : realBin () n (turns () n) line b
    = ⟨∑ j ∈ Finset.range n, line j * cosine n (j * b),
      -∑ j ∈ Finset.range n, line j * sine n (j * b)⟩ := by
  refine Coefficient.ext_parts ?_ ?_
  · rw [← cosines_exact hn]
    exact Entry.sumFrom_exact _ _ _ _
  · rw [← sines_exact hn, ← Finset.sum_neg_distrib]
    refine (Entry.sumTo_exact _ _ _).trans (Finset.sum_congr rfl ?_)
    intro i _
    rw [times_sin hn, times_sin hn]
    show (line (n - (i + 1)) - line (i + 1)) * _ = _
    ring

/-- A coefficient turned by the fraction `j / n`. -/
noncomputable def Direction.turned (d : Direction) (n j : ℕ) : Coefficient 𝕜 →+ Coefficient 𝕜 :=
  match d with
  | .forward => Coefficient.turned (cosine n j) (sine n j)
  | .inverse => Coefficient.turned (cosine n j) (-sine n j)

/-- The even part is the sum with cosines. -/
theorem evenPart_exact (hn : 0 < n) (line : ℕ → Coefficient 𝕜) (b : ℕ) :
    evenPart () n (turns () n) line b = ⟨∑ j ∈ Finset.range n, (line j).re * cosine n (j * b),
      ∑ j ∈ Finset.range n, (line j).im * cosine n (j * b)⟩ := by
  unfold evenPart
  rw [Coefficient.sumFrom_exact]
  refine Coefficient.ext_parts ?_ ?_
  · show unpaired () n (turns () n) (fun j => (line j).re) b
      + (∑ i ∈ Finset.range (pairs n), _ : Coefficient 𝕜).re = _
    rw [Coefficient.re_sum]
    exact cosines_exact hn (fun j => (line j).re) b
  · show unpaired () n (turns () n) (fun j => (line j).im) b
      + (∑ i ∈ Finset.range (pairs n), _ : Coefficient 𝕜).im = _
    rw [Coefficient.im_sum]
    exact cosines_exact hn (fun j => (line j).im) b

/-- The odd part is the sum with sines. -/
theorem oddPart_exact (hn : 0 < n) (line : ℕ → Coefficient 𝕜) (b : ℕ) :
    oddPart () n (turns () n) line b = ⟨∑ j ∈ Finset.range n, (line j).re * sine n (j * b),
      ∑ j ∈ Finset.range n, (line j).im * sine n (j * b)⟩ := by
  unfold oddPart
  rw [Coefficient.sumFrom_exact, Coefficient.zero_eq, zero_add]
  refine Coefficient.ext_parts ?_ ?_
  · rw [Coefficient.re_sum]
    exact sines_exact hn (fun j => (line j).re) b
  · rw [Coefficient.im_sum]
    exact sines_exact hn (fun j => (line j).im) b

/-- A bin of a complex line. -/
theorem bin_exact (hn : 0 < n) (d : Direction) (line : ℕ → Coefficient 𝕜) (b : ℕ) :
    bin () d n (turns () n) line b = ∑ j ∈ Finset.range n, d.turned n (j * b) (line j) := by
  unfold bin
  rw [evenPart_exact hn, oddPart_exact hn]
  -- The folded sums are those of the cosines and of the sines; the direction is the sign of these.
  cases d with
  | forward =>
    refine Coefficient.ext_parts ?_ ?_
    · rw [Coefficient.re_sum]
      show _ - ((Entry.zero () : 𝕜) - _)
        = ∑ j ∈ Finset.range n, ((line j).re * cosine n (j * b) + (line j).im * sine n (j * b))
      rw [Finset.sum_add_distrib, Entry.zero_exact, zero_sub, sub_neg_eq_add]
    · rw [Coefficient.im_sum]
      show _ - _
        = ∑ j ∈ Finset.range n, ((line j).im * cosine n (j * b) - (line j).re * sine n (j * b))
      rw [Finset.sum_sub_distrib]
      rfl
  | inverse =>
    refine Coefficient.ext_parts ?_ ?_
    · rw [Coefficient.re_sum]
      show _ + ((Entry.zero () : 𝕜) - _)
        = ∑ j ∈ Finset.range n, ((line j).re * cosine n (j * b) + (line j).im * -sine n (j * b))
      simp only [mul_neg]
      rw [Finset.sum_add_distrib, Finset.sum_neg_distrib, Entry.zero_exact, zero_sub]
    · rw [Coefficient.im_sum]
      show _ + _
        = ∑ j ∈ Finset.range n, ((line j).im * cosine n (j * b) - (line j).re * -sine n (j * b))
      simp only [mul_neg, sub_neg_eq_add]
      rw [Finset.sum_add_distrib]
      rfl

/-- How often a bin stands for a bin of the whole circle: once if it is its own mirror
image, twice otherwise. -/
noncomputable def weight (n b : ℕ) : 𝕜 := if b = 0 ∨ 2 * b = n then 1 else 2

theorem isSelfAdjoint_weight (n b : ℕ) : IsSelfAdjoint (weight n b : 𝕜) := by
  unfold weight
  split_ifs
  · exact .one 𝕜
  · exact .ofNat 2

/-- An entry of the line with given bins. -/
theorem realEntry_exact (hn : 0 < n) (line : ℕ → Coefficient 𝕜) (j : ℕ) :
    realEntry () n (turns () n) line j = ∑ b ∈ Finset.range (n / 2 + 1), weight n b
      * ((line b).re * cosine n (b * j) - (line b).im * sine n (b * j)) := by
  have hpair : ∀ i ∈ Finset.range (pairs n), (weight n (i + 1) : 𝕜) = 2 := by
    intro i hi
    have hi' := Finset.mem_range.1 hi
    unfold pairs at hi'
    unfold weight
    rw [if_neg (by omega)]
  -- Bin 0, and the middle bin of an even line, have no partner and no sine.
  have hunpaired : unpaired () n (turns () n) (fun b => (line b).re) j
      = if n % 2 = 0 then weight n 0 * ((line 0).re * cosine n (0 * j) - (line 0).im * sine n (0 * j))
          + weight n (n / 2) * ((line (n / 2)).re * cosine n (n / 2 * j)
            - (line (n / 2)).im * sine n (n / 2 * j))
        else weight n 0 * ((line 0).re * cosine n (0 * j) - (line 0).im * sine n (0 * j)) := by
    have hfirst : (weight n 0 : 𝕜) = 1 := if_pos (Or.inl rfl)
    unfold unpaired
    rw [times_cos hn, hfirst, sine_start hn, Nat.zero_mul, cosine_zero, mul_zero, sub_zero,
      mul_one, one_mul]
    by_cases heven : n % 2 = 0
    · have hlast : (weight n (n / 2) : 𝕜) = 1 := if_pos (Or.inr (by omega))
      rw [if_pos heven, if_pos heven, hlast, sine_opposite hn heven, mul_zero, sub_zero, one_mul]
      rfl
    · rw [if_neg heven, if_neg heven]
  unfold realEntry
  rw [Entry.sumFrom_exact, Entry.sumTo_exact, sum_half hn, hunpaired]
  show (_ + _) - _ = _
  rw [add_sub_assoc, ← Finset.sum_sub_distrib]
  refine congrArg (_ + ·) (Finset.sum_congr rfl ?_)
  intro i hi
  rw [times_cos hn, times_sin hn, hpair i hi]
  show ((line (i + 1)).re + (line (i + 1)).re) * _ - ((line (i + 1)).im + (line (i + 1)).im) * _ = _
  ring

end Short

/-! ## §5. One stage. -/

/-- A length that is not factored is one stage. -/
theorem stages_whole (n : ℕ) : (stages () [n] : List (Stage 𝕜))
    = [⟨n, 1, turns () n, turns () (n * 1)⟩] := rfl

theorem getD_ofFn {β : Type} {m : ℕ} (f : Fin m → β) {i : ℕ} (hi : i < m) (e : β) :
    (Array.ofFn f).getD i e = f ⟨i, hi⟩ := by
  rw [Array.getD_eq_getD_getElem?, Array.getElem?_ofFn, dif_pos hi]
  rfl

theorem place_ofFn {m : ℕ} (f : Fin m → Coefficient 𝕜) {i : ℕ} (hi : i < m) :
    place () (Array.ofFn f) i = f ⟨i, hi⟩ := getD_ofFn f hi _

/-- A bin of a real line of length `n`. -/
theorem realBins_entry (hn : 0 < n) (line : ℕ → 𝕜) {b : ℕ} (hb : b < n / 2 + 1)
    (e : Coefficient 𝕜) :
    (realBins () (stages () (Control.realRadices ℝ n).factors) line).getD b e
      = ⟨∑ j ∈ Finset.range n, line j * cosine n (j * b),
        -∑ j ∈ Finset.range n, line j * sine n (j * b)⟩ := by
  rw [show (Control.realRadices ℝ n).factors = [n] from rfl, stages_whole]
  unfold realBins Stage.length
  have hb' : b < n * 1 / 2 + 1 := by rwa [Nat.mul_one]
  rw [getD_ofFn _ hb']
  unfold joinedBin
  dsimp only
  rw [Nat.mod_one, Nat.div_one, if_pos (by omega), if_pos rfl]
  -- Each part of a single stage is one entry of the line.
  have hpart : ∀ j ∈ Finset.range n, (place () ((Array.ofFn fun c : Fin n =>
      realBins () [] fun j => line (c + n * j)).getD j #[]) 0).re = line j := by
    intro j hj
    rw [getD_ofFn _ (Finset.mem_range.1 hj)]
    rfl
  rw [realBin_exact hn]
  refine Coefficient.ext_parts ?_ ?_
  · exact Finset.sum_congr rfl fun j hj => congrArg (· * _) (hpart j hj)
  · exact congrArg Neg.neg (Finset.sum_congr rfl fun j hj => congrArg (· * _) (hpart j hj))

/-- A bin of a complex line of length `n`. -/
theorem complexBins_entry (hn : 0 < n) (d : Direction) (line : ℕ → Coefficient 𝕜) {b : ℕ}
    (hb : b < n) (e : Coefficient 𝕜) :
    (complexBins () d (stages () (Control.complexRadices ℝ n).factors) line).getD b e
      = ∑ j ∈ Finset.range n, d.turned n (j * b) (line j) := by
  rw [show (Control.complexRadices ℝ n).factors = [n] from rfl, stages_whole]
  unfold complexBins Stage.length
  have hb' : b < n * 1 := by rwa [Nat.mul_one]
  rw [getD_ofFn _ hb']
  dsimp only
  rw [Nat.mod_eq_of_lt hb, Nat.div_eq_of_lt hb, getD_ofFn _ hb]
  -- The one bin of part `u` is bin `u` of the line.
  show place () (Array.ofFn fun i : Fin 1 => splitBin () d _ line b i) 0 = _
  rw [place_ofFn _ Nat.one_pos]
  unfold splitBin turnBin
  rw [if_pos (Or.inr rfl), bin_exact hn]
  apply Finset.sum_congr rfl
  intro j _
  rw [Nat.zero_add, Nat.one_mul]

/-- An entry of the real line of length `n` with given bins. -/
theorem realLine_entry (hn : 0 < n) (line : ℕ → Coefficient 𝕜) {j : ℕ} (hj : j < n) (e : 𝕜) :
    (realLine () (stages () (Control.realRadices ℝ n).factors) line).getD j e
      = ∑ b ∈ Finset.range (n / 2 + 1), weight n b
        * ((line b).re * cosine n (b * j) - (line b).im * sine n (b * j)) := by
  rw [show (Control.realRadices ℝ n).factors = [n] from rfl, stages_whole]
  unfold realLine Stage.length
  have hj' : j < n * 1 := by rwa [Nat.mul_one]
  rw [getD_ofFn _ hj']
  dsimp only
  rw [Nat.mod_eq_of_lt hj, Nat.div_eq_of_lt hj, getD_ofFn _ hj]
  show (place () (Array.ofFn _) 0).re = _
  rw [place_ofFn _ (Nat.succ_pos _)]
  unfold splitHalf
  rw [if_pos rfl]
  show realEntry () n (turns () n) (fun q => line (1 * q)) j = _
  rw [realEntry_exact hn]
  apply Finset.sum_congr rfl
  intro b _
  rw [Nat.one_mul]

end Fourier

end PrimalDual
