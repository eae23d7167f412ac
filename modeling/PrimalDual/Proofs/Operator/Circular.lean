/-
  PrimalDual.Proofs.Operator.Circular
  ───────────────────────────────────
  **CIRCULAR CONVOLUTION AND CIRCULAR CORRELATION.**

  With `h` the weights of a kernel, indices around the axes of its shape, and
  every block of leading axes on its own,

      forward x  at i   =   ∑ⱼ h j · x (i - j)
      adjoint x  at i   =   ∑ⱼ h j · x (i + j)

  Both are filters, and a filter is known by what its factors do to a
  character: those of the forward direction move it on by `j`, their
  conjugates move it back (`Moves`).  So the product of the bins of `x` with
  the factors consists of the bins of the right-hand side (`product_bins`),
  and the inverse transform restores any real tensor from its bins.
-/
import PrimalDual.Proofs.Fourier.Character
import PrimalDual.Proofs.Operator.Convolution

namespace PrimalDual

namespace Convolution

open Tensor
open PrimalDual.Fourier
open Coefficient

/-! ## §1. Weighted sums. -/

/-- `z` has the shape of `x`, and in each block of leading axes its entries are the sums,
weighted by `h`, of those entries of the block that `pick` names. -/
structure WeightedSums (s batch : List ℕ) (h : Index s → ℝ) (pick : Index s → Index s → Index s)
    (x z : Tensor Unit ℝ) : Prop where
  shape_eq : z.shape = x.shape
  entries : ∀ b < batch.prod, ∀ i : Index s, z.entry (b * s.prod + Index.position i)
    = ∑ j, h j * x.entry (b * s.prod + Index.position (pick i j))

/-- The weighted sums, listed by positions. -/
noncomputable def sumAt {s : List ℕ} (h : Index s → ℝ) (pick : Index s → Index s → Index s)
    (v : ℕ → ℝ) (q : ℕ) : ℝ :=
  Function.extend Index.position
    (fun i => ∑ j, h j * v (q / s.prod * s.prod + Index.position (pick i j))) 0 (q % s.prod)

theorem sumAt_position {s : List ℕ} (h : Index s → ℝ) (pick : Index s → Index s → Index s)
    (v : ℕ → ℝ) (b : ℕ) (i : Index s) : sumAt h pick v (b * s.prod + Index.position i)
      = ∑ j, h j * v (b * s.prod + Index.position (pick i j)) := by
  unfold sumAt
  rw [row_div (Index.position_lt i), row_mod (Index.position_lt i),
    Index.position_injective.extend_apply]

/-! ## §2. Filters. -/

section Filter

variable {c : Convolution Unit ℝ} {batch init : List ℕ} {n : ℕ}
  {factors : Tensor Unit (Coefficient ℝ)} {h : Index (init ++ [n]) → ℝ}
  {e : Index (init ++ [n]) → Index (init ++ [n]) ≃ Index (init ++ [n])}

/-- Each factor is a sum with the weights `h`, whose term at `j` moves the character of its
bin by `e j`. -/
def Moves (factors : Tensor Unit (Coefficient ℝ)) (h : Index (init ++ [n]) → ℝ)
    (e : Index (init ++ [n]) → Index (init ++ [n]) ≃ Index (init ++ [n])) : Prop :=
  ∀ r < (init ++ [binCount n]).prod, ∀ k, HasFrequency init n r k →
    ∃ ψ : Index (init ++ [n]) → ℂ, value (coefficientAt factors r) = ∑ j, (h j : ℂ) * ψ j
      ∧ ∀ i j, character k i * ψ j = character k (e j i)

/-- **The bins of a signal times the factors are the bins of the weighted sums.** -/
theorem product_bins (hfactors : factors.shape = binShape [] init n) (hmoves : Moves factors h e)
    (hpos : ∀ m ∈ init, 0 < m) (v : ℕ → ℝ) (b : ℕ) {r : ℕ} (hr : r < (init ++ [binCount n]).prod) :
    Coefficient.mul ()
        (spectra .forward (binShape batch init n) (innerAxes batch init) (halfBins n v)
          (b * (init ++ [binCount n]).prod + r))
        (factorAt factors (binShape batch init n) (b * (init ++ [binCount n]).prod + r))
      = spectra .forward (binShape batch init n) (innerAxes batch init)
          (halfBins n (sumAt h (fun i j => (e j).symm i) v))
          (b * (init ++ [binCount n]).prod + r) := by
  -- In each block the factors are read anew.
  have hsource : source factors.shape (binShape batch init n)
      (b * (init ++ [binCount n]).prod + r) = r := by
    rw [hfactors]
    unfold binShape
    rw [List.append_assoc, List.nil_append, List.append_assoc, source_append, row_mod hr]
  -- Both sides become sums over the character of the bin.
  obtain ⟨k, hk⟩ := exists_frequency hpos hr
  obtain ⟨ψ, hfactor, hψ⟩ := hmoves r hr k hk
  apply value_injective
  unfold factorAt
  rw [value_mul, hsource, hfactor, hk, hk, sum_mul_character e hψ]
  apply Finset.sum_congr rfl
  intro i _
  rw [sumAt_position, Complex.ofReal_sum]
  simp only [Complex.ofReal_mul]

/-- A filtered signal consists of weighted sums of the signal. -/
theorem filter_weightedSums (hc : c.shape = init ++ [n])
    (hfactors : factors.shape = binShape [] init n) (hmoves : Moves factors h e) (hn : 0 < n)
    (hpos : ∀ m ∈ init, 0 < m) {x : Tensor Unit ℝ} (hx : x.shape = batch ++ (init ++ [n])) :
    ∃ z, (c.filter factors x : Except (Failure ℝ) _) = .ok z
      ∧ WeightedSums (init ++ [n]) batch h (fun i j => (e j).symm i) x z := by
  rw [← List.append_assoc] at hx
  obtain ⟨hshape, hbins⟩ := real_at hx hn hpos
  obtain ⟨product, hproduct, hproductShape, hentry⟩ := product_of_shape hshape hfactors
  have hP : 0 < (init ++ [binCount n]).prod := by
    rw [List.prod_append, List.prod_singleton]
    exact Nat.mul_pos (List.prod_pos hpos) (binCount_pos n)
  -- The product has the bins of the weighted sums, a real tensor, in every block.
  obtain ⟨hzshape, hz⟩ := inverseReal_bins hproductShape hn hpos fun q hq => by
    rw [hentry q hq, hbins q hq, ← Nat.div_add_mod' q (init ++ [binCount n]).prod]
    exact product_bins hfactors hmoves hpos x.entry _ (Nat.mod_lt q hP)
  refine ⟨inverseReal c.shape product, filter_of_product hc hx hn hpos hproduct, ?_⟩
  rw [hc]
  refine ⟨hzshape.trans hx.symm, ?_⟩
  intro b hb i
  have hlt : b * (init ++ [n]).prod + Index.position i < (batch ++ init ++ [n]).prod := by
    rw [List.append_assoc]
    exact (row_lt hb (Index.position_lt i)).trans_eq List.prod_append.symm
  rw [hz _ hlt, sumAt_position]

end Filter

/-! ## §3. The two directions. -/

section Directions

variable {kernel : Tensor Unit ℝ} {batch init : List ℕ} {n : ℕ}
  {c : Convolution Unit ℝ} {h : Index (init ++ [n]) → ℝ} {x : Tensor Unit ℝ}

/-- The transfer function of a convolution with the weights `h`. -/
structure Weighs (c : Convolution Unit ℝ) (h : Index (init ++ [n]) → ℝ) : Prop where
  pos : 0 < n ∧ ∀ m ∈ init, 0 < m
  shape_eq : c.shape = init ++ [n]
  transfer_shape : c.transfer.shape = binShape [] init n
  transfer_value : ∀ r < (init ++ [binCount n]).prod, ∀ k, HasFrequency init n r k →
    value (coefficientAt c.transfer r) = ∑ j, (h j : ℂ) * character k j

/-- A kernel without empty axes gives a convolution with its weights. -/
theorem ofKernel_weighs (normalize : Bool) (hkernel : kernel.shape = init ++ [n]) (hn : 0 < n)
    (hpos : ∀ m ∈ init, 0 < m) :
    ∃ c, (ofKernel kernel normalize () : Except (Failure ℝ) _) = .ok c
      ∧ c.Weighs fun j : Index (init ++ [n]) =>
        kernelWeight kernel normalize (Index.position j) := by
  obtain ⟨weights, hshape, hentry, heq⟩ := ofKernel_weights kernel normalize
  have hweights : weights.shape = [] ++ init ++ [n] := hshape.trans hkernel
  have haxes : weights.axes = init.length + 1 := by
    unfold Tensor.axes
    rw [hweights, List.nil_append, List.length_append, List.length_singleton]
  have hsignal := signalBins_of_shape hweights hn hpos
  obtain ⟨htransfer, hbins⟩ := real_at hweights hn hpos
  rw [haxes, hsignal] at heq
  refine ⟨_, heq, ⟨hn, hpos⟩, hweights, htransfer, ?_⟩
  intro r hr k hk
  -- The kernel is one block.
  have hvalue := hk [] weights.entry 0
  rw [Nat.zero_mul, Nat.zero_add] at hvalue
  refine (congrArg value (hbins r hr)).trans (hvalue.trans (Finset.sum_congr rfl ?_))
  intro j _
  have hlt : Index.position j < kernel.size := by
    rw [size_eq, hkernel]
    exact Index.position_lt j
  rw [Nat.zero_mul, Nat.zero_add, hentry _ hlt]

theorem Weighs.forward (hc : c.Weighs h) (hx : x.shape = batch ++ (init ++ [n])) :
    ∃ z, (c.forward x : Except (Failure ℝ) _) = .ok z
      ∧ WeightedSums (init ++ [n]) batch h (fun i j => i - j) x z := by
  refine filter_weightedSums (e := Index.shift) hc.shape_eq hc.transfer_shape
    ?_ hc.pos.1 hc.pos.2 hx
  intro r hr k hk
  exact ⟨character k, hc.transfer_value r hr k hk, fun i j => (character_add k i j).symm⟩

theorem Weighs.adjoint (hc : c.Weighs h) (hx : x.shape = batch ++ (init ++ [n])) :
    ∃ z, (c.adjoint x : Except (Failure ℝ) _) = .ok z
      ∧ WeightedSums (init ++ [n]) batch h (fun i j => i + j) x z := by
  have hconj : (c.transfer.map () (Coefficient.conj ())).shape = binShape [] init n :=
    hc.transfer_shape
  refine filter_weightedSums (e := fun j => (Index.shift j).symm) hc.shape_eq hconj
    ?_ hc.pos.1 hc.pos.2 hx
  intro r hr k hk
  refine ⟨fun j => star (character k j), ?_, fun i j => (character_sub k i j).symm⟩
  -- Weights are real, so only the characters are conjugated.
  rw [coefficientAt_conj, value_conj, hc.transfer_value r hr k hk, star_sum]
  apply Finset.sum_congr rfl
  intro j _
  rw [star_mul']
  exact congrArg (· * _) (Complex.conj_ofReal _)

/-- **A convolution is circular convolution and its adjoint circular correlation**, for
every kernel with at least one axis and none that is empty, and for every signal whose
last axes have the lengths of the kernel's.  Indices are subtracted and added around the
axes. -/
theorem circular_convolution (kernel : Tensor Unit ℝ) (normalize : Bool)
    (haxes : kernel.axes ≠ 0) (hpos : ∀ m ∈ kernel.shape, 0 < m) :
    ∃ c, (ofKernel kernel normalize () : Except (Failure ℝ) _) = .ok c
      ∧ ∀ (batch : List ℕ) (x : Tensor Unit ℝ), x.shape = batch ++ kernel.shape →
        (∃ z, (c.forward x : Except (Failure ℝ) _) = .ok z
          ∧ WeightedSums kernel.shape batch
            (fun j => kernelWeight kernel normalize (Index.position j)) (fun i j => i - j) x z)
        ∧ ∃ z, (c.adjoint x : Except (Failure ℝ) _) = .ok z
          ∧ WeightedSums kernel.shape batch
            (fun j => kernelWeight kernel normalize (Index.position j)) (fun i j => i + j) x z := by
  generalize hs : kernel.shape = s at hpos ⊢
  obtain rfl | ⟨init, n, rfl⟩ := List.eq_nil_or_concat s
  · exact absurd (congrArg List.length hs) haxes
  rw [List.concat_eq_append] at *
  obtain ⟨c, hc, hweighs⟩ := ofKernel_weighs normalize hs (hpos n (by simp))
    fun m hm => hpos m (by simp [hm])
  exact ⟨c, hc, fun batch x hx => ⟨hweighs.forward hx, hweighs.adjoint hx⟩⟩

end Directions

/-- The numbers from 0 on, in a shape. -/
noncomputable def ramp (s : List ℕ) : Tensor Unit ℝ := tabulate () s fun i => i

/-- A kernel with an even and an odd axis, divided by its sum, and two signals at once. -/
theorem circular_convolution_ramp :
    (ramp [2, 3]).axes ≠ 0 ∧ (∀ m ∈ (ramp [2, 3]).shape, 0 < m)
      ∧ ∃ c z, (ofKernel (ramp [2, 3]) true () : Except (Failure ℝ) _) = .ok c
        ∧ (c.forward (ramp [2, 2, 3]) : Except (Failure ℝ) _) = .ok z
        ∧ WeightedSums [2, 3] [2] (fun j => kernelWeight (ramp [2, 3]) true (Index.position j))
          (fun i j => i - j) (ramp [2, 2, 3]) z := by
  have haxes : (ramp [2, 3]).axes ≠ 0 := by decide
  have hpos : ∀ m ∈ (ramp [2, 3]).shape, 0 < m := by decide
  obtain ⟨c, hc, hdirections⟩ := circular_convolution (ramp [2, 3]) true haxes hpos
  obtain ⟨⟨z, hz, hsums⟩, -⟩ := hdirections [2] (ramp [2, 2, 3]) rfl
  exact ⟨haxes, hpos, c, z, hc, hz, hsums⟩

end Convolution

end PrimalDual
