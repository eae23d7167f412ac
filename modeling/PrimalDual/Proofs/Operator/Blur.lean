/-
  PrimalDual.Proofs.Operator.Blur
  ───────────────────────────────
  **CONVOLUTIONS THAT AVERAGE.**

  The weights of a kernel that was divided by its sum add up to one.  Both
  directions of its convolution are then averages, over the same weights and
  over moved copies of the signal, and in every block of leading axes

    * `total_eq` — the entries keep their sum, since each copy has the sum of
        the signal;
    * `eq_of_constant` — a constant block is its own average;
    * `norm_le` — if no weight is negative, the square of an average is at
        most the average of the squares, so no direction amplifies.

  What is used of a copy is that the move is a bijection of the multi-indices
  (`Index.shift`), in either direction.
-/
import PrimalDual.Proofs.Operator.Circular
import Mathlib.Analysis.MeanInequalitiesPow

namespace PrimalDual

namespace Convolution

open Tensor

/-! ## §1. Weighted sums of moved copies. -/

section Copies

variable {s batch : List ℕ} {h : Index s → ℝ} {e : Index s → Index s ≃ Index s}
  {x z : Tensor Unit ℝ}

/-- The entry of a block with a multi-index. -/
noncomputable def blockEntry {s : List ℕ} (x : Tensor Unit ℝ) (b : ℕ) (i : Index s) : ℝ :=
  x.entry (b * s.prod + Index.position i)

/-- A weighted sum of moved copies. -/
theorem WeightedSums.blockEntry_eq (hz : WeightedSums s batch h (fun i j => e j i) x z) {b : ℕ}
    (hb : b < batch.prod) (i : Index s) :
    blockEntry z b i = ∑ j, h j * blockEntry x b (e j i) :=
  hz.entries b hb i

/-- Tensors of one shape are known by the entries of their blocks. -/
theorem ext_block (hx : x.shape = batch ++ s) (hz : z.shape = batch ++ s)
    (hentry : ∀ b < batch.prod, ∀ i : Index s, blockEntry z b i = blockEntry x b i) : z = x := by
  refine ext_entry rfl (hz.trans hx.symm) ?_
  intro q hq
  rw [size_eq, hz, List.prod_append] at hq
  have hrest : 0 < s.prod := Nat.pos_of_ne_zero (by rintro h0; simp [h0] at hq)
  obtain ⟨i, hi⟩ := Index.exists_index (Nat.mod_lt q hrest)
  have hblock : q / s.prod < batch.prod := Nat.div_lt_of_lt_mul (by rwa [Nat.mul_comm])
  have heq := hentry _ hblock i
  unfold blockEntry at heq
  rwa [hi, Nat.div_add_mod'] at heq

/-- The squared norm, block by block. -/
theorem norm_vec_sq_block (x : Tensor Unit ℝ) : ‖vec (batch ++ s) x‖ ^ 2
    = ∑ b ∈ Finset.range batch.prod, ∑ i : Index s, blockEntry x b i ^ 2 := by
  rw [norm_vec_sq, List.prod_append, sum_range_mul]
  apply Finset.sum_congr rfl
  intro b _
  rw [← Index.sum_position fun q => ‖x.entry (b * s.prod + q)‖ ^ 2]
  apply Finset.sum_congr rfl
  intro i _
  rw [Real.norm_eq_abs, sq_abs]
  rfl

/-- Summed over all multi-indices, the copies count alike, so their weights add up. -/
theorem sum_copies (hsum : ∑ j, h j = 1) (e : Index s → Index s ≃ Index s) (g : Index s → ℝ) :
    ∑ i, ∑ j, h j * g (e j i) = ∑ i, g i :=
  calc ∑ i, ∑ j, h j * g (e j i)
      = ∑ j, h j * ∑ i, g (e j i) := by
        rw [Finset.sum_comm]
        exact Finset.sum_congr rfl fun j _ => (Finset.mul_sum _ _ _).symm
    _ = ∑ j, h j * ∑ i, g i := by
        apply Finset.sum_congr rfl
        intro j _
        rw [(e j).sum_comp g]
    _ = ∑ i, g i := by rw [← Finset.sum_mul, hsum, one_mul]

namespace WeightedSums

/-- **The total of a block is kept**: every copy of the block has its total. -/
theorem total_eq (hz : WeightedSums s batch h (fun i j => e j i) x z) (hsum : ∑ j, h j = 1)
    {b : ℕ} (hb : b < batch.prod) :
    ∑ i : Index s, blockEntry z b i = ∑ i : Index s, blockEntry x b i :=
  calc ∑ i : Index s, blockEntry z b i
      = ∑ i, ∑ j, h j * blockEntry x b (e j i) :=
        Finset.sum_congr rfl fun i _ => hz.blockEntry_eq hb i
    _ = ∑ i : Index s, blockEntry x b i := sum_copies hsum e fun i => blockEntry x b i

/-- **A signal with constant blocks is mapped to itself.** -/
theorem eq_of_constant (hz : WeightedSums s batch h (fun i j => e j i) x z)
    (hx : x.shape = batch ++ s) (hsum : ∑ j, h j = 1)
    (hconstant : ∀ b < batch.prod, ∀ i i' : Index s, blockEntry x b i = blockEntry x b i') :
    z = x := by
  apply ext_block hx (hz.shape_eq.trans hx)
  intro b hb i
  calc blockEntry z b i = ∑ j, h j * blockEntry x b (e j i) := hz.blockEntry_eq hb i
    _ = ∑ j, h j * blockEntry x b i := by
        apply Finset.sum_congr rfl
        intro j _
        rw [hconstant b hb (e j i) i]
    _ = blockEntry x b i := by rw [← Finset.sum_mul, hsum, one_mul]

/-- **An average does not amplify.** -/
theorem norm_le (hz : WeightedSums s batch h (fun i j => e j i) x z) (hsum : ∑ j, h j = 1)
    (hnonneg : ∀ j, 0 ≤ h j) : ‖vec (batch ++ s) z‖ ≤ ‖vec (batch ++ s) x‖ := by
  have hblock : ∀ b < batch.prod,
      ∑ i : Index s, blockEntry z b i ^ 2 ≤ ∑ i : Index s, blockEntry x b i ^ 2 := by
    intro b hb
    calc ∑ i : Index s, blockEntry z b i ^ 2
        = ∑ i, (∑ j, h j * blockEntry x b (e j i)) ^ 2 := by
          apply Finset.sum_congr rfl
          intro i _
          rw [hz.blockEntry_eq hb i]
      _ ≤ ∑ i, ∑ j, h j * blockEntry x b (e j i) ^ 2 := by
          -- The square of an average is at most the average of the squares.
          apply Finset.sum_le_sum
          intro i _
          exact Real.pow_arith_mean_le_arith_mean_pow_of_even _ _ _ (fun j _ => hnonneg j) hsum
            even_two
      _ = ∑ i : Index s, blockEntry x b i ^ 2 := sum_copies hsum e fun i => blockEntry x b i ^ 2
  have hsq : ‖vec (batch ++ s) z‖ ^ 2 ≤ ‖vec (batch ++ s) x‖ ^ 2 := by
    rw [norm_vec_sq_block, norm_vec_sq_block]
    exact Finset.sum_le_sum fun b hb => hblock b (Finset.mem_range.1 hb)
  exact le_of_sq_le_sq hsq (norm_nonneg _)

end WeightedSums

end Copies

/-! ## §2. Kernels that are divided by their sum. -/

section Normalized

variable {kernel : Tensor Unit ℝ} {s : List ℕ}

/-- Divided by its sum, a kernel has weights that add up to one. -/
theorem sum_kernelWeight (hkernel : kernel.shape = s)
    (hsum : ∑ j ∈ Finset.range kernel.size, kernel.entry j ≠ 0) :
    ∑ j : Index s, kernelWeight kernel true (Index.position j) = 1 := by
  have hsize : kernel.size = s.prod := by rw [size_eq, hkernel]
  unfold kernelWeight
  simp only [if_true]
  rw [← Finset.sum_div, Index.sum_position fun q => kernel.entry q, ← hsize, div_self hsum]

theorem kernelWeight_nonneg (hkernel : kernel.shape = s)
    (hnonneg : ∀ i < kernel.size, 0 ≤ kernel.entry i) (j : Index s) :
    0 ≤ kernelWeight kernel true (Index.position j) := by
  have hlt : Index.position j < kernel.size := by
    rw [size_eq, hkernel]
    exact Index.position_lt j
  unfold kernelWeight
  rw [if_pos rfl]
  refine div_nonneg (hnonneg _ hlt) (Finset.sum_nonneg ?_)
  intro i hi
  exact hnonneg i (Finset.mem_range.1 hi)

/-- `z` has the totals of `x` in every block of leading axes, is `x` itself where `x` is
constant on blocks, and is no larger than `x` if the kernel has no negative entry. -/
structure Averages (kernel : Tensor Unit ℝ) (s batch : List ℕ) (x z : Tensor Unit ℝ) : Prop where
  shape_eq : z.shape = x.shape
  total : ∀ b < batch.prod, ∑ i : Index s, z.entry (b * s.prod + Index.position i)
    = ∑ i : Index s, x.entry (b * s.prod + Index.position i)
  constant : (∀ b < batch.prod, ∀ i i' : Index s, x.entry (b * s.prod + Index.position i)
    = x.entry (b * s.prod + Index.position i')) → z = x
  norm_le : (∀ i < kernel.size, 0 ≤ kernel.entry i) → ‖vec x.shape z‖ ≤ ‖vec x.shape x‖

/-- Weighted sums with the weights of a kernel that was divided by its sum. -/
theorem WeightedSums.averages {batch : List ℕ} {x z : Tensor Unit ℝ}
    {e : Index s → Index s ≃ Index s}
    (hz : WeightedSums s batch (fun j => kernelWeight kernel true (Index.position j))
      (fun i j => e j i) x z)
    (hkernel : kernel.shape = s) (hx : x.shape = batch ++ s)
    (hsum : ∑ j ∈ Finset.range kernel.size, kernel.entry j ≠ 0) :
    Averages kernel s batch x z where
  shape_eq := hz.shape_eq
  total _ hb := hz.total_eq (sum_kernelWeight hkernel hsum) hb
  constant h := hz.eq_of_constant hx (sum_kernelWeight hkernel hsum) h
  norm_le h := by
    rw [hx]
    exact hz.norm_le (sum_kernelWeight hkernel hsum) (kernelWeight_nonneg hkernel h)

/-- **A normalised convolution preserves mass and never amplifies.**  For every kernel with
a nonzero sum, with at least one axis and none that is empty, and for every signal whose last
axes have the lengths of the kernel's, both directions return an average of the signal. -/
theorem normalized_convolution (kernel : Tensor Unit ℝ) (haxes : kernel.axes ≠ 0)
    (hpos : ∀ m ∈ kernel.shape, 0 < m)
    (hsum : ∑ j ∈ Finset.range kernel.size, kernel.entry j ≠ 0) :
    ∃ c, (ofKernel kernel true () : Except (Failure ℝ) _) = .ok c
      ∧ ∀ (batch : List ℕ) (x : Tensor Unit ℝ), x.shape = batch ++ kernel.shape →
        ∃ z y, (c.forward x : Except (Failure ℝ) _) = .ok z
          ∧ (c.adjoint x : Except (Failure ℝ) _) = .ok y
          ∧ Averages kernel kernel.shape batch x z
          ∧ Averages kernel kernel.shape batch x y := by
  generalize hs : kernel.shape = s at hpos ⊢
  obtain rfl | ⟨init, n, rfl⟩ := List.eq_nil_or_concat s
  · exact absurd (congrArg List.length hs) haxes
  rw [List.concat_eq_append] at *
  obtain ⟨c, hc, hweighs⟩ := ofKernel_weighs true hs (hpos n (by simp))
    fun m hm => hpos m (by simp [hm])
  refine ⟨c, hc, ?_⟩
  intro batch x hx
  obtain ⟨z, hz, hforward⟩ := hweighs.forward hx
  obtain ⟨y, hy, hadjoint⟩ := hweighs.adjoint hx
  refine ⟨z, y, hz, hy, ?_, ?_⟩
  · exact WeightedSums.averages (e := fun j => (Index.shift j).symm) hforward hs hx hsum
  · exact WeightedSums.averages (e := Index.shift) hadjoint hs hx hsum

end Normalized

/-- The kernel that gives every entry of a shape the same weight. -/
noncomputable def box (s : List ℕ) : Tensor Unit ℝ := tabulate () s fun _ => 1

/-- The mean over the windows of a matrix, of two signals at once. -/
theorem normalized_convolution_box :
    (box [2, 3]).axes ≠ 0 ∧ (∀ m ∈ (box [2, 3]).shape, 0 < m)
      ∧ ∑ j ∈ Finset.range (box [2, 3]).size, (box [2, 3]).entry j ≠ 0
      ∧ ∃ c z y, (ofKernel (box [2, 3]) true () : Except (Failure ℝ) _) = .ok c
        ∧ (c.forward (ramp [2, 2, 3]) : Except (Failure ℝ) _) = .ok z
        ∧ (c.adjoint (ramp [2, 2, 3]) : Except (Failure ℝ) _) = .ok y
        ∧ ‖vec [2, 2, 3] z‖ ≤ ‖vec [2, 2, 3] (ramp [2, 2, 3])‖
        ∧ ‖vec [2, 2, 3] y‖ ≤ ‖vec [2, 2, 3] (ramp [2, 2, 3])‖ := by
  have hentry : ∀ i < (box [2, 3]).size, (box [2, 3]).entry i = 1 := by
    intro i hi
    rw [size_eq] at hi
    exact entry_tabulate _ _ _ hi
  have haxes : (box [2, 3]).axes ≠ 0 := by decide
  have hpos : ∀ m ∈ (box [2, 3]).shape, 0 < m := by decide
  have hsum : ∑ j ∈ Finset.range (box [2, 3]).size, (box [2, 3]).entry j ≠ 0 := by
    rw [Finset.sum_congr rfl fun j hj => hentry j (Finset.mem_range.1 hj), Finset.sum_const,
      Finset.card_range, show (box [2, 3]).size = 6 from size_eq _]
    norm_num
  have hnonneg : ∀ i < (box [2, 3]).size, 0 ≤ (box [2, 3]).entry i := by
    intro i hi
    rw [hentry i hi]
    exact zero_le_one
  obtain ⟨c, hc, hdirections⟩ := normalized_convolution (box [2, 3]) haxes hpos hsum
  obtain ⟨z, y, hz, hy, hforward, hadjoint⟩ := hdirections [2] (ramp [2, 2, 3]) rfl
  exact ⟨haxes, hpos, hsum, c, z, y, hc, hz, hy, hforward.norm_le hnonneg,
    hadjoint.norm_le hnonneg⟩

end Convolution

end PrimalDual
