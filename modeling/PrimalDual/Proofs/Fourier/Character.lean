/-
  PrimalDual.Proofs.Fourier.Character
  ───────────────────────────────────
  **BINS AS SUMS OVER MULTI-INDICES.**

  Every bin of a real tensor has a frequency `k` along each transformed axis,
  and it is the sum of the entries times the values of one character,

      character k j  =  ∏ₐ exp (-2πi jₐ kₐ / sₐ).

  The bins that are kept are some of these sums (`exists_frequency`); which
  ones does not matter to what follows.  A character turns sums of
  multi-indices into products, so the product of two such sums is again one,
  and its entries are those of a circular convolution or correlation
  (`sum_mul_character`).
-/
import PrimalDual.Proofs.Fourier.Inversion
import PrimalDual.Proofs.Tensor.Index

namespace PrimalDual

namespace Fourier

open Tensor Coefficient

/-! ## §1. Characters. -/

section Character

variable {s : List ℕ}

/-- The values that a frequency gives to the multi-indices of a shape. -/
noncomputable def character (k : Fin s.length → ℕ) (j : Index s) : ℂ :=
  ∏ a, Direction.forward.root (s.get a) ^ (j a * k a : ℕ)

/-- Whole turns do not count. -/
theorem forward_root_mod {n : ℕ} (hn : 0 < n) (l c : ℕ) :
    Direction.forward.root n ^ (l % n * c) = Direction.forward.root n ^ (l * c) := by
  have hone : (unitRoot n)⁻¹ ^ n = 1 := by
    rw [inv_pow, (isPrimitiveRoot_unitRoot hn).pow_eq_one, inv_one]
  show (unitRoot n)⁻¹ ^ _ = (unitRoot n)⁻¹ ^ _
  rw [pow_mul, ← pow_eq_pow_mod l hone, ← pow_mul]

/-- **A character turns sums of positions into products.** -/
theorem character_add (k : Fin s.length → ℕ) (i j : Index s) :
    character k (i + j) = character k i * character k j := by
  unfold character
  rw [← Finset.prod_mul_distrib]
  apply Finset.prod_congr rfl
  intro a _
  rw [Pi.add_apply, Fin.val_add, forward_root_mod (j a).pos, ← pow_add, Nat.add_mul]

/-- A character has values of magnitude 1. -/
theorem character_mul_star (k : Fin s.length → ℕ) (j : Index s) :
    character k j * star (character k j) = 1 := by
  have hroot : ∀ n, Direction.forward.root n * star (Direction.forward.root n) = 1 := by
    intro n
    show (unitRoot n)⁻¹ * star (unitRoot n)⁻¹ = 1
    rw [← star_unitRoot, star_star, star_unitRoot]
    exact inv_mul_cancel₀ (Complex.exp_ne_zero _)
  unfold character
  rw [star_prod, ← Finset.prod_mul_distrib]
  apply Finset.prod_eq_one
  intro a _
  rw [star_pow, ← mul_pow, hroot, one_pow]

/-- A character turns differences of positions into quotients. -/
theorem character_sub (k : Fin s.length → ℕ) (i j : Index s) :
    character k (i - j) = character k i * star (character k j) := by
  -- Moved on by `j`, the difference is `i`.
  calc character k (i - j)
      = character k (i - j) * (character k j * star (character k j)) := by
        rw [character_mul_star, mul_one]
    _ = character k (i - j + j) * star (character k j) := by
        rw [character_add, mul_assoc]
    _ = character k i * star (character k j) := by rw [Index.back_forth]

theorem character_cons {m : ℕ} (c : ℕ) (k : Fin s.length → ℕ) (b : Fin m) (j : Index s) :
    character (s := m :: s) (Fin.cons c k : Fin (s.length + 1) → ℕ) (Index.cons b j)
      = Direction.forward.root m ^ (b * c : ℕ) * character k j := by
  unfold character
  exact Fin.prod_univ_succ _

/-- **The product of two sums over a character.**  `ψ` moves the character by the
multi-indices `e j`, so the first factor is moved back by them. -/
theorem sum_mul_character {k : Fin s.length → ℕ} (e : Index s → Index s ≃ Index s)
    {ψ : Index s → ℂ} (hψ : ∀ i j, character k i * ψ j = character k (e j i))
    (u h : Index s → ℂ) :
    (∑ i, u i * character k i) * (∑ j, h j * ψ j)
      = ∑ i, (∑ j, h j * u ((e j).symm i)) * character k i := by
  calc (∑ i, u i * character k i) * (∑ j, h j * ψ j)
      = ∑ j, ∑ i, h j * u i * character k (e j i) := by
        rw [Finset.sum_mul_sum, Finset.sum_comm]
        apply Finset.sum_congr rfl
        intro j _
        apply Finset.sum_congr rfl
        intro i _
        rw [← hψ]
        ring
    _ = ∑ j, ∑ i, h j * u ((e j).symm i) * character k i := by
        -- For a fixed `j`, the sum runs over where `i` came from.
        apply Finset.sum_congr rfl
        intro j _
        rw [← (e j).sum_comp fun i => h j * u ((e j).symm i) * character k i]
        simp only [Equiv.symm_apply_apply]
    _ = _ := by
        rw [Finset.sum_comm]
        exact Finset.sum_congr rfl fun i _ => (Finset.sum_mul ..).symm

end Character

/-! ## §2. The frequency of a bin. -/

section Frequency

variable {batch init : List ℕ} {m n : ℕ}

/-- The axis that is transformed first may as well be transformed last. -/
theorem spectra_cons (d : Direction) {S axes : List ℕ} {p : ℕ} (h : Open S (p :: axes))
    (v : ℕ → Coefficient ℝ) :
    spectra d S (p :: axes) v = spectrum d (S.getD p 1) (stride S p) (spectra d S axes v) := by
  rw [← spectra_reverse d h, ← spectra_reverse d h.tail]
  unfold spectra
  rw [List.reverse_cons, List.foldl_append]
  rfl

/-- An axis before the transformed ones may be counted as one of a batch. -/
theorem binShape_cons : binShape batch (m :: init) n = binShape (batch ++ [m]) init n := by
  unfold binShape
  rw [List.append_assoc batch [m] init, List.singleton_append]

theorem innerAxes_cons :
    innerAxes batch (m :: init) = batch.length :: innerAxes (batch ++ [m]) init := by
  unfold innerAxes
  rw [List.length_append, List.length_singleton, List.length_cons, List.range'_succ]

theorem getD_binShape : (binShape batch (m :: init) n).getD batch.length 1 = m := by
  unfold binShape
  rw [List.append_assoc, List.getD_eq_getElem?_getD, List.getElem?_append_right le_rfl,
    Nat.sub_self]
  rfl

theorem stride_binShape :
    stride (binShape batch (m :: init) n) batch.length = (init ++ [binCount n]).prod := by
  unfold stride binShape
  rw [List.append_assoc, ← List.drop_drop, List.drop_left]
  rfl

/-- Bin `r` of every block of transformed axes is the sum of the entries of that block
times the character of the frequency `k`. -/
def HasFrequency (init : List ℕ) (n r : ℕ) (k : Fin (init ++ [n]).length → ℕ) : Prop :=
  ∀ (batch : List ℕ) (v : ℕ → ℝ) (x : ℕ),
    value (spectra .forward (binShape batch init n) (innerAxes batch init) (halfBins n v)
        (x * (init ++ [binCount n]).prod + r))
      = ∑ j : Index (init ++ [n]), (v (x * (init ++ [n]).prod + Index.position j) : ℂ)
        * character k j

/-- Along the last axis alone, bin `r` has the frequency `r`. -/
theorem hasFrequency_last {r : ℕ} (hr : r < binCount n) :
    HasFrequency [] n r (Fin.cons r fun a => a.elim0 : Fin (([] : List ℕ).length + 1) → ℕ) := by
  intro batch v x
  have hcoordinate : (x * binCount n + r) % binCount n = r := row_mod hr
  show value (halfBins n v (x * [binCount n].prod + r))
    = ∑ j : Index [n], (v (x * [n].prod + Index.position j) : ℂ) * character (s := [n]) _ j
  rw [List.prod_singleton, List.prod_singleton, value_halfBins, hcoordinate, Finset.sum_range]
  refine Eq.trans (Finset.sum_congr rfl ?_) (Index.sum_cons _).symm
  intro j _
  rw [Index.sum_nil, character_cons, Index.position_cons, Index.position_nil, List.prod_nil,
    Nat.mul_one, Nat.add_zero]
  unfold across character
  rw [Nat.mul_one, Nat.mod_one, Nat.mul_one, Nat.add_zero, row_div hr]
  exact (congrArg (_ * ·) (mul_one _)).symm

/-- An axis in front adds a frequency of its own. -/
theorem HasFrequency.cons {c : ℕ} {k : Fin (init ++ [n]).length → ℕ} (h : HasFrequency init n c k)
    (hpos : ∀ a ∈ m :: init, 0 < a) {b : ℕ} (hb : b < m) (hc : c < (init ++ [binCount n]).prod) :
    HasFrequency (m :: init) n (b * (init ++ [binCount n]).prod + c)
      (Fin.cons b k : Fin ((init ++ [n]).length + 1) → ℕ) := by
  intro batch v x
  have hopen : Open (binShape batch (m :: init) n)
      (batch.length :: innerAxes (batch ++ [m]) init) := by
    rw [← innerAxes_cons]
    exact open_innerAxes hpos
  have hplace : x * (m :: init ++ [binCount n]).prod + (b * (init ++ [binCount n]).prod + c)
      = (x * m + b) * (init ++ [binCount n]).prod + c := by
    rw [List.cons_append, List.prod_cons]
    ring
  show _ = ∑ j : Index (m :: (init ++ [n])), (v (x * (m :: (init ++ [n])).prod
    + Index.position j) : ℂ) * character (s := m :: (init ++ [n])) _ j
  -- With the first axis transformed last, the other axes have a bin in each of its rows.
  rw [innerAxes_cons, spectra_cons _ hopen, getD_binShape, stride_binShape, value_spectrum, hplace,
    position_coordinate hb hc, Finset.sum_range]
  refine Eq.trans (Finset.sum_congr rfl ?_) (Index.sum_cons _).symm
  intro j _
  rw [across_position hb hc, binShape_cons, h, Finset.sum_mul]
  apply Finset.sum_congr rfl
  intro l _
  have hentry : (x * m + j) * (init ++ [n]).prod + Index.position l
      = x * (m :: (init ++ [n])).prod + Index.position (Index.cons j l) := by
    rw [Index.position_cons, List.prod_cons]
    ring
  rw [hentry, character_cons]
  ring

/-- **Every bin has a frequency.** -/
theorem exists_frequency (hpos : ∀ m ∈ init, 0 < m) {r : ℕ}
    (hr : r < (init ++ [binCount n]).prod) : ∃ k, HasFrequency init n r k := by
  -- `HasFrequency` is about every block, so the hypothesis covers each row of the first axis.
  induction init generalizing r with
  | nil => exact ⟨_, hasFrequency_last (hr.trans_eq List.prod_singleton)⟩
  | cons m init ih =>
    rw [List.cons_append, List.prod_cons] at hr
    -- The block of `r` along the first axis, and the bin within it.
    have hP : 0 < (init ++ [binCount n]).prod := Nat.pos_of_ne_zero fun h => by simp [h] at hr
    have hc := Nat.mod_lt r hP
    have hb : r / (init ++ [binCount n]).prod < m := (Nat.div_lt_iff_lt_mul hP).2 hr
    obtain ⟨k, hk⟩ := ih (fun a ha => hpos a (List.mem_cons_of_mem m ha)) hc
    have hfrequency := hk.cons hpos hb hc
    rw [Nat.div_add_mod'] at hfrequency
    exact ⟨_, hfrequency⟩

end Frequency

end Fourier

end PrimalDual
