/-
  PrimalDual.Proofs.Operator.Convolution
  ──────────────────────────────────────
  **CONVOLUTION AND CORRELATION ARE ADJOINT.**

  Both directions of a convolution filter a signal: they multiply its bins
  by factors and transform back.  With `X`, `Y` the bins of `x`, `y`, `h` the
  transfer function and `⟨·,·⟩` the inner product that counts bins by their
  weight,

      ⟨forward x, y⟩ = ⟨X h, Y⟩ / N = ⟨X, Y h̄⟩ / N = ⟨x, adjoint y⟩

  A kernel is real, so the parts of its transfer function are.  That is all
  that the middle step needs; the signals may have complex entries.
-/
import PrimalDual.Proofs.Fourier.Transform

namespace PrimalDual

open Tensor
open PrimalDual.Fourier

variable {𝕜 : Type} [RCLike 𝕜]

theorem Tensor.cast_exact (x : Tensor Unit 𝕜) : x.cast () = x :=
  ext rfl rfl (Array.map_id x.data)

namespace Convolution

/-! ## §1. Bins of signals. -/

/-- No signal is refused for its kind, and none has to be read as another. -/
theorem signalBins_exact (d : ℕ) (x : Tensor Unit 𝕜) : (signalBins d x : Except (Failure ℝ) _)
    = if x.axes < d then .error .axisRange
      else if d = 0 || (x.shape.drop (x.axes - d)).any (· == 0) then .error .shapeMismatch
      else .ok (real d x) := by
  refine (if_neg Bool.false_ne_true).trans ?_
  rw [show x.cast (Kinds.floating x.kind) = x from cast_exact x]

theorem any_zero_eq_false {s : List ℕ} (hpos : ∀ m ∈ s, 0 < m) : s.any (· == 0) = false := by
  rw [List.any_eq_false]
  intro m hm hzero
  exact (hpos m hm).ne' (beq_iff_eq.1 hzero)

/-- A signal is transformed if it has axes and none of those to be transformed is empty. -/
theorem signalBins_of_shape {x : Tensor Unit 𝕜} {batch init : List ℕ} {n : ℕ}
    (hx : x.shape = batch ++ init ++ [n]) (hn : 0 < n) (hpos : ∀ m ∈ init, 0 < m) :
    (signalBins (init.length + 1) x : Except (Failure ℝ) _) = .ok (real (init.length + 1) x) := by
  have haxes : x.axes = batch.length + (init.length + 1) := by
    unfold Tensor.axes
    rw [hx, List.length_append, List.length_append, List.length_singleton, Nat.add_assoc]
  have hlast : x.shape.drop (x.axes - (init.length + 1)) = init ++ [n] := by
    rw [haxes, Nat.add_sub_cancel, hx, List.append_assoc, List.drop_left]
  have hfull : ∀ m ∈ init ++ [n], 0 < m := by
    intro m hm
    rw [List.mem_append, List.mem_singleton] at hm
    obtain hm | rfl := hm
    · exact hpos m hm
    · exact hn
  rw [signalBins_exact, if_neg (by omega), hlast, any_zero_eq_false hfull, Bool.or_false,
    decide_eq_false (Nat.succ_ne_zero _), if_neg Bool.false_ne_true]

/-- A tensor all of whose axes were transformed. -/
theorem signalBins_ok {x : Tensor Unit 𝕜} {X : Tensor Unit (Coefficient 𝕜)}
    (h : (signalBins x.axes x : Except (Failure ℝ) _) = .ok X) :
    ∃ init n, x.shape = init ++ [n] ∧ 0 < n ∧ (∀ m ∈ init, 0 < m)
      ∧ X = real (init.length + 1) x := by
  rw [signalBins_exact, if_neg (lt_irrefl _), Nat.sub_self, List.drop_zero] at h
  split_ifs at h with hempty
  rw [Bool.or_eq_true, not_or, decide_eq_true_eq, List.any_eq_true] at hempty
  obtain ⟨haxes, hfull⟩ := hempty
  have hpos : ∀ m ∈ x.shape, 0 < m := fun m hm =>
    Nat.pos_of_ne_zero fun hzero => hfull ⟨m, hm, beq_iff_eq.2 hzero⟩
  obtain hnil | ⟨init, n, hshape⟩ := List.eq_nil_or_concat x.shape
  · exact absurd (congrArg List.length hnil) haxes
  rw [List.concat_eq_append] at hshape
  rw [hshape] at hpos
  refine ⟨init, n, hshape, hpos n (by simp), fun m hm => hpos m (by simp [hm]), ?_⟩
  cases h
  refine congrArg (fun d => real d x) ?_
  unfold Tensor.axes
  rw [hshape, List.length_append, List.length_singleton]

/-! ## §2. Filters. -/

section Filter

variable {c : Convolution Unit 𝕜} {batch init : List ℕ} {n : ℕ}

/-- The factor that a filter applies to the bin at a position. -/
noncomputable def factorAt (factors : Tensor Unit (Coefficient 𝕜)) (S : List ℕ) (i : ℕ) :
    Coefficient 𝕜 :=
  coefficientAt factors (source factors.shape S i)

/-- The bins of the last axes stretch to those of a signal with more axes in front. -/
theorem binShape_stretches (batch init : List ℕ) (n : ℕ) :
    Stretches (binShape [] init n) (binShape batch init n) := by
  have h := stretches_append batch (binShape [] init n)
  unfold binShape at h ⊢
  rwa [List.nil_append, ← List.append_assoc] at h

/-- The bins of a signal multiplied by factors. -/
theorem product_of_shape {X factors : Tensor Unit (Coefficient 𝕜)}
    (hX : X.shape = binShape batch init n) (hfactors : factors.shape = binShape [] init n) :
    ∃ product, (zipWith () (Coefficient.mul ()) (Coefficient.zero ()) (Coefficient.zero ())
        X factors : Except (Failure ℝ) _) = .ok product
      ∧ product.shape = binShape batch init n
      ∧ ∀ i < (binShape batch init n).prod, coefficientAt product i = Coefficient.mul ()
        (coefficientAt X i) (factorAt factors (binShape batch init n) i) := by
  have hstretch : stretch X.shape factors.shape = some (binShape batch init n) := by
    rw [hX, hfactors, stretch_comm]
    exact stretch_of_stretches (binShape_stretches batch init n)
  refine ⟨_, zipWith_of_stretch _ _ _ _ hstretch, rfl, ?_⟩
  intro i hi
  refine (entryD_tabulate _ _ _ _ hi).trans ?_
  rw [hX, source_self hi, Coefficient.zero_eq]
  rfl

/-- A filter multiplies the bins of a signal by its factors and transforms the product back. -/
theorem filter_of_product {factors product : Tensor Unit (Coefficient 𝕜)} {x : Tensor Unit 𝕜}
    (hc : c.shape = init ++ [n]) (hx : x.shape = batch ++ init ++ [n]) (hn : 0 < n)
    (hpos : ∀ m ∈ init, 0 < m)
    (hproduct : (zipWith () (Coefficient.mul ()) (Coefficient.zero ()) (Coefficient.zero ())
      (real (init.length + 1) x) factors : Except (Failure ℝ) _) = .ok product) :
    (c.filter factors x : Except (Failure ℝ) _) = .ok (inverseReal c.shape product) := by
  have hsignal : (signalBins c.shape.length x : Except (Failure ℝ) _)
      = .ok (real (init.length + 1) x) := by
    rw [hc, List.length_append, List.length_singleton]
    exact signalBins_of_shape hx hn hpos
  apply bind_returns hsignal
  apply bind_returns hproduct
  rfl

/-- **A filtered signal** and its inner product with another one. -/
theorem filter_of_shape (factors : Tensor Unit (Coefficient 𝕜)) {x : Tensor Unit 𝕜}
    (hc : c.shape = init ++ [n]) (hfactors : factors.shape = binShape [] init n)
    (hx : x.shape = batch ++ init ++ [n]) (hn : 0 < n) (hpos : ∀ m ∈ init, 0 < m) :
    ∃ u, (c.filter factors x : Except (Failure ℝ) _) = .ok u ∧ u.shape = batch ++ init ++ [n]
      ∧ ∀ y : Tensor Unit 𝕜, y.shape = batch ++ init ++ [n] →
        dot u y = share 𝕜 (init ++ [n]) * bracket (binShape batch init n).prod (binWeight n)
          (fun i => Coefficient.mul () (coefficientAt (real (init.length + 1) x) i)
            (factorAt factors (binShape batch init n) i))
          (coefficientAt (real (init.length + 1) y)) := by
  obtain ⟨hshape, -⟩ := real_at hx hn hpos
  obtain ⟨product, hproduct, hproductShape, hentry⟩ := product_of_shape hshape hfactors
  -- The transform back is adjoint to the transform, so the bins of both signals meet.
  refine ⟨inverseReal c.shape product, filter_of_product hc hx hn hpos hproduct, ?_, ?_⟩
  · rw [hc]
    exact (inverseReal_at hproductShape hn hpos).1
  · intro y hy
    rw [hc, dot_inverseReal hproductShape hy hn hpos]
    refine congrArg (share 𝕜 (init ++ [n]) * ·) (Finset.sum_congr rfl ?_)
    intro i hi
    rw [hentry i (Finset.mem_range.1 hi)]

end Filter

/-! ## §3. Transfer functions. -/

/-- A tensor divided by the sum of its entries. -/
theorem div_sum (x : Tensor Unit 𝕜) : ∃ z, (x.div x.sum : Except (Failure ℝ) _) = .ok z
    ∧ z.shape = x.shape
    ∧ ∀ i < x.size, z.entry i = x.entry i / ∑ j ∈ Finset.range x.size, x.entry j := by
  have hnil : Stretches [] x.shape := .nil _
  have hstretch : stretch x.shape x.sum.shape = some x.shape := by
    rw [stretch_comm]
    exact stretch_of_stretches hnil
  refine ⟨_, zipWith_of_stretch () (Entry.div ()) (Entry.zero () : 𝕜) (Entry.zero () : 𝕜) hstretch,
    rfl, ?_⟩
  intro i hi
  rw [size_eq] at hi
  rw [entry_tabulate _ _ _ hi, source_self hi]
  refine congrArg (x.entry i / ·) ?_
  exact (entry_tabulate _ _ _ (source_lt hnil hi)).trans (Entry.sumTo_exact _ _ _)

/-- The weight that an entry of a kernel has in its convolution. -/
noncomputable def kernelWeight (kernel : Tensor Unit 𝕜) (normalize : Bool) (i : ℕ) : 𝕜 :=
  if normalize then kernel.entry i / ∑ j ∈ Finset.range kernel.size, kernel.entry j
  else kernel.entry i

/-- What a convolution is made from: the entries of its kernel, divided by their sum or not. -/
theorem ofKernel_weights (kernel : Tensor Unit 𝕜) (normalize : Bool) : ∃ weights : Tensor Unit 𝕜,
    weights.shape = kernel.shape
    ∧ (∀ i < kernel.size, weights.entry i = kernelWeight kernel normalize i)
    ∧ (ofKernel kernel normalize () : Except (Failure ℝ) _)
      = Convolution.mk weights.shape <$> signalBins weights.axes weights := by
  unfold ofKernel
  dsimp only
  rw [cast_exact]
  cases normalize with
  | false => exact ⟨kernel, rfl, fun _ _ => rfl, rfl⟩
  | true =>
    obtain ⟨weights, hweights, hshape, hentry⟩ := div_sum kernel
    refine ⟨weights, hshape, hentry, ?_⟩
    rw [if_pos rfl, hweights]
    rfl

/-- The weights of a real kernel are real. -/
theorem ofKernel_eq (kernel : Tensor Unit 𝕜) (normalize : Bool) : ∃ weights : Tensor Unit 𝕜,
    weights.shape = kernel.shape
    ∧ ((∀ i, IsSelfAdjoint (kernel.entry i)) → ∀ i, IsSelfAdjoint (weights.entry i))
    ∧ (ofKernel kernel normalize () : Except (Failure ℝ) _)
      = Convolution.mk weights.shape <$> signalBins weights.axes weights := by
  obtain ⟨weights, hshape, hentry, heq⟩ := ofKernel_weights kernel normalize
  refine ⟨weights, hshape, ?_, heq⟩
  intro hreal i
  by_cases hi : i < kernel.size
  · rw [hentry i hi]
    cases normalize with
    | false => exact hreal i
    | true => exact (hreal i).div (isSelfAdjoint_sum _ fun j _ => hreal j)
  · rw [entry_eq_zero]
    · exact .zero 𝕜
    · rw [size_eq, hshape, ← size_eq]
      exact not_lt.1 hi

/-- A kernel is accepted if it has axes and none of them is empty. -/
theorem ofKernel_returns (kernel : Tensor Unit 𝕜) (normalize : Bool) (haxes : kernel.axes ≠ 0)
    (hpos : ∀ m ∈ kernel.shape, 0 < m) :
    ∃ c, (ofKernel kernel normalize () : Except (Failure ℝ) _) = .ok c := by
  obtain ⟨weights, hshape, -, h⟩ := ofKernel_eq kernel normalize
  refine ⟨_, h.trans (map_eq_ok.2 ⟨real weights.axes weights, ?_, rfl⟩)⟩
  rw [← hshape] at hpos
  have hweights : weights.axes ≠ 0 := by
    unfold Tensor.axes
    rwa [hshape]
  rw [signalBins_exact, if_neg (lt_irrefl _), Nat.sub_self, List.drop_zero,
    any_zero_eq_false hpos, Bool.or_false, decide_eq_false hweights, if_neg Bool.false_ne_true]

/-- The transfer function of a kernel with real entries. -/
theorem transfer_of_kernel {kernel : Tensor Unit 𝕜} {normalize : Bool} {c : Convolution Unit 𝕜}
    (hreal : ∀ i, IsSelfAdjoint (kernel.entry i))
    (h : (ofKernel kernel normalize () : Except (Failure ℝ) _) = .ok c) :
    ∃ init n, kernel.shape = init ++ [n] ∧ c.shape = init ++ [n] ∧ 0 < n ∧ (∀ m ∈ init, 0 < m)
      ∧ c.transfer.shape = binShape [] init n
      ∧ ∀ i < (binShape [] init n).prod, (coefficientAt c.transfer i).RealParts := by
  obtain ⟨weights, hkernel, hweights, heq⟩ := ofKernel_eq kernel normalize
  obtain ⟨X, hX, rfl⟩ := map_eq_ok.1 (heq.symm.trans h)
  obtain ⟨init, n, hshape, hn, hpos, rfl⟩ := signalBins_ok hX
  have hbatch : weights.shape = [] ++ init ++ [n] := hshape
  obtain ⟨htransfer, hentry⟩ := real_at hbatch hn hpos
  refine ⟨init, n, hkernel.symm.trans hshape, hshape, hn, hpos, htransfer, ?_⟩
  intro i hi
  rw [hentry i hi]
  exact realParts_spectra _ _ _ (realParts_halfBins (hweights hreal)) i

/-! ## §4. The two directions. -/

theorem coefficientAt_conj (X : Tensor Unit (Coefficient 𝕜)) (i : ℕ) :
    coefficientAt (X.map () (Coefficient.conj ())) i = Coefficient.conj () (coefficientAt X i) := by
  have hzero : Coefficient.conj () (0 : Coefficient 𝕜) = 0 :=
    Coefficient.ext_parts rfl ((congrArg (· - (0 : 𝕜)) (Entry.zero_exact ())).trans (sub_zero 0))
  have h := entryD_map () (Coefficient.conj ()) X (0 : Coefficient 𝕜) i
  rwa [hzero] at h

/-- The factors of the adjoint are the conjugates of those of the forward direction. -/
theorem factorAt_conj (X : Tensor Unit (Coefficient 𝕜)) (S : List ℕ) (i : ℕ) :
    factorAt (X.map () (Coefficient.conj ())) S i = Coefficient.conj () (factorAt X S i) :=
  coefficientAt_conj X _

/-- A convolution accepts every signal whose last axes have the lengths of the kernel's. -/
theorem returns_convolution {kernel : Tensor Unit 𝕜} {normalize : Bool} {c : Convolution Unit 𝕜}
    (hreal : ∀ i, IsSelfAdjoint (kernel.entry i))
    (h : (ofKernel kernel normalize () : Except (Failure ℝ) _) = .ok c) (batch : List ℕ) :
    Operator.Returns (batch ++ kernel.shape)
      (Operator.convolution c : Operator (Except (Failure ℝ)) ℝ Unit 𝕜)
      (batch ++ kernel.shape) := by
  obtain ⟨init, n, hkernel, hc, hn, hpos, htransfer, -⟩ := transfer_of_kernel hreal h
  intro x hx
  rw [hkernel, ← List.append_assoc] at hx ⊢
  obtain ⟨u, hu, hshape, -⟩ := filter_of_shape c.transfer hc htransfer hx hn hpos
  exact ⟨u, hu, hshape⟩

/-- **Convolution and correlation with a real kernel are adjoint** on signals whose last
axes have the lengths of the kernel's. -/
theorem adjoint_convolution {kernel : Tensor Unit 𝕜} {normalize : Bool} {c : Convolution Unit 𝕜}
    (hreal : ∀ i, IsSelfAdjoint (kernel.entry i))
    (h : (ofKernel kernel normalize () : Except (Failure ℝ) _) = .ok c) (batch : List ℕ) :
    MutuallyAdjoint (batch ++ kernel.shape)
      (Operator.convolution c : Operator (Except (Failure ℝ)) ℝ Unit 𝕜).forward
      (Operator.convolution c).adjoint := by
  obtain ⟨init, n, hkernel, hc, hn, hpos, htransfer, hparts⟩ := transfer_of_kernel hreal h
  intro x hx u hu y hy
  rw [hkernel, ← List.append_assoc] at hx
  obtain ⟨u', hu', hushape, hdotu⟩ := filter_of_shape c.transfer hc htransfer hx hn hpos
  cases hu'.symm.trans hu
  rw [hushape] at hy
  obtain ⟨v, hv, hvshape, hdotv⟩ := filter_of_shape
    (c.transfer.map () (Coefficient.conj ())) hc htransfer hy hn hpos
  refine ⟨v, hv, ?_, ?_⟩
  · rw [hvshape, hkernel, List.append_assoc]
  have hfactor : ∀ i < (binShape batch init n).prod,
      (factorAt c.transfer (binShape batch init n) i).RealParts := by
    intro i hi
    refine hparts _ ?_
    have hlt := source_lt (binShape_stretches batch init n) hi
    rwa [← htransfer] at hlt ⊢
  have hweight : ∀ i, IsSelfAdjoint (binWeight n i : 𝕜) := fun i => isSelfAdjoint_weight n _
  -- `⟨x, v⟩` is the conjugate of the inner product that `filter_of_shape` knows.
  rw [hdotu y hy, ← star_dot (hvshape.trans hx.symm), hdotv x hx, star_mul',
    (isSelfAdjoint_share _).star_eq, star_bracket hweight]
  refine congrArg (share 𝕜 (init ++ [n]) * ·) (Finset.sum_congr rfl ?_)
  intro i hi
  dsimp only
  rw [factorAt_conj, Coefficient.meet_mul _ _ (hfactor i (Finset.mem_range.1 hi))]

end Convolution

end PrimalDual
