/-
  PrimalDual.Proofs.Operator.SignalShape
  ──────────────────────────────────────
  **WHICH SIGNALS A CONVOLUTION ACCEPTS.**

  A convolution never compares the shape of a signal with that of its kernel.
  The bins of both are multiplied, so what has to fit are the numbers of bins
  along each axis, and an axis with one bin is stretched to any number:

      in front of the last axis   equal lengths, or one of them is 1
      along the last axis         equal halves `m/2 = n/2`, or one length is 1

  The inverse transform then writes the lengths of the kernel, whatever those
  of the signal were.  A signal of the kernel's lengths is accepted and keeps
  its shape; any other signal that is accepted comes back in another shape
  (`longer_signal_accepted`).

  None of this depends on the arithmetic.
-/
import PrimalDual.Proofs.Operator.Convolution

namespace PrimalDual

open Tensor
open PrimalDual.Fourier

/-- Two lengths of which one can be stretched to the other. -/
def Fits (a b : ℕ) : Prop := a = b ∨ a = 1 ∨ b = 1

/-! ## §1. Stretching under axes in front. -/

namespace Tensor

theorem stretchReversed_nil_right (r : List ℕ) : stretchReversed r [] = some r := by
  rw [stretchReversed_comm, stretchReversed]

theorem stretch_nil_right (s : List ℕ) : stretch s [] = some s := by
  unfold stretch
  rw [List.reverse_nil, stretchReversed_nil_right, Option.map_some, List.reverse_reverse]

/-- Shapes whose axes fit stretch to a shape with as many axes. -/
theorem stretchReversed_of_fits {s t : List ℕ} (h : List.Forall₂ Fits s t) (r : List ℕ) :
    ∃ w, w.length = t.length ∧ stretchReversed (s ++ r) t = some (w ++ r) := by
  -- Axes are compared from the last one on, and `r` is what only one side has left.
  induction h with
  | nil => exact ⟨[], rfl, stretchReversed_nil_right r⟩
  | @cons a b s t hab _ ih =>
    obtain ⟨w, hlength, hw⟩ := ih
    rw [List.cons_append, stretchReversed, hw]
    by_cases heq : a = b
    · exact ⟨a :: w, congrArg (· + 1) hlength, if_pos heq⟩
    · by_cases ha : a = 1
      · exact ⟨b :: w, congrArg (· + 1) hlength, by rw [if_neg heq, if_pos ha]; rfl⟩
      · have hb : b = 1 := (hab.resolve_left heq).resolve_left ha
        exact ⟨a :: w, congrArg (· + 1) hlength,
          by rw [if_neg heq, if_neg ha, if_pos hb]; rfl⟩

theorem fits_of_stretchReversed {s t r u : List ℕ} (hlength : s.length = t.length)
    (h : stretchReversed (s ++ r) t = some u) : List.Forall₂ Fits s t := by
  induction s generalizing t u with
  | nil =>
    rw [List.eq_nil_of_length_eq_zero hlength.symm]
    exact .nil
  | cons a s ih =>
    cases t with
    | nil => cases hlength
    | cons b t =>
      have hlength' : s.length = t.length := Nat.succ.inj hlength
      rw [List.cons_append, stretchReversed] at h
      split_ifs at h with hab ha hb
      · obtain ⟨v, hv, -⟩ := Option.map_eq_some_iff.1 h
        exact .cons (.inl hab) (ih hlength' hv)
      · obtain ⟨v, hv, -⟩ := Option.map_eq_some_iff.1 h
        exact .cons (.inr (.inl ha)) (ih hlength' hv)
      · obtain ⟨v, hv, -⟩ := Option.map_eq_some_iff.1 h
        exact .cons (.inr (.inr hb)) (ih hlength' hv)

theorem stretch_of_fits {s t : List ℕ} (h : List.Forall₂ Fits s t) (batch : List ℕ) :
    ∃ w, w.length = t.length ∧ stretch (batch ++ s) t = some (batch ++ w) := by
  obtain ⟨w, hlength, hw⟩ := stretchReversed_of_fits (List.forall₂_reverse_iff.2 h) batch.reverse
  refine ⟨w.reverse, ?_, ?_⟩
  · rw [List.length_reverse, hlength, List.length_reverse]
  · unfold stretch
    rw [List.reverse_append, hw, Option.map_some, List.reverse_append, List.reverse_reverse]

theorem fits_of_stretch {s t u batch : List ℕ} (hlength : s.length = t.length)
    (h : stretch (batch ++ s) t = some u) : List.Forall₂ Fits s t := by
  obtain ⟨v, hv, -⟩ := Option.map_eq_some_iff.1 h
  rw [List.reverse_append] at hv
  refine List.forall₂_reverse_iff.1 (fits_of_stretchReversed ?_ hv)
  rw [List.length_reverse, List.length_reverse, hlength]

end Tensor

variable {κ α R : Type} [Control R] [Entry α R κ]

/-! ## §2. The shapes of transforms. -/

namespace Fourier

theorem shape_own_length (d : Direction) (p : ℕ) (X : Tensor κ (Coefficient α)) :
    (alongComplex d p (X.shape.getD p 1) X).shape = X.shape := by
  show X.shape.set p _ = X.shape
  by_cases hp : p < X.shape.length
  · exact set_axis hp
  · exact List.set_eq_of_length_le (not_lt.1 hp)

/-- The bins over any number of axes have the shape of those over the last one. -/
theorem shape_real_set (d : ℕ) (x : Tensor κ α) :
    (real d x).shape = x.shape.set (x.axes - 1) (x.shape.getD (x.axes - 1) 1 / 2 + 1) := by
  have hkept : ∀ (axes : List ℕ) (X : Tensor κ (Coefficient α)),
      (axes.foldl (fun s p => alongComplex .forward p (s.shape.getD p 1) s) X).shape = X.shape := by
    intro axes
    induction axes with
    | nil => exact fun X => rfl
    | cons p axes ih => exact fun X => (ih _).trans (shape_own_length _ _ _)
  exact hkept _ _

/-- The bins of a tensor: all its axes but the last keep their lengths. -/
theorem shape_real {x : Tensor κ α} {outer : List ℕ} {n : ℕ} (hx : x.shape = outer ++ [n]) (d : ℕ) :
    (real d x).shape = outer ++ [binCount n] := by
  have haxes : x.axes - 1 = outer.length := by
    unfold Tensor.axes
    rw [hx, List.length_append, List.length_singleton, Nat.add_sub_cancel]
  rw [shape_real_set, haxes, hx, getD_last, set_last]
  rfl

/-- Transforms of given lengths along the axes after those of `batch`. -/
theorem shape_resized {batch w init rest : List ℕ} (hlength : w.length = init.length)
    {X : Tensor κ (Coefficient α)} (hX : X.shape = batch ++ w ++ rest) :
    ((init.zipIdx batch.length).foldl (fun s (n, p) => alongComplex .inverse p n s) X).shape
      = batch ++ init ++ rest := by
  -- The axis that is done joins those of the batch.
  induction init generalizing batch w X with
  | nil =>
    rw [List.eq_nil_of_length_eq_zero hlength] at hX
    exact hX
  | cons m init ih =>
    obtain ⟨a, w, rfl⟩ := List.exists_cons_of_length_eq_add_one hlength
    have hnext : (alongComplex .inverse batch.length m X).shape = (batch ++ [m]) ++ w ++ rest := by
      show X.shape.set batch.length m = _
      rw [hX, List.append_assoc, List.cons_append, List.set_append_right _ _ le_rfl, Nat.sub_self]
      simp
    have hstart : batch.length + 1 = (batch ++ [m]).length := by
      rw [List.length_append, List.length_singleton]
    rw [List.zipIdx_cons, List.foldl_cons, hstart, ih (Nat.succ.inj hlength) hnext]
    simp

/-- The inverse writes the lengths that it is given. -/
theorem shape_inverseReal {batch w init : List ℕ} {h n : ℕ} (hlength : w.length = init.length)
    {P : Tensor κ (Coefficient α)} (hP : P.shape = batch ++ w ++ [h]) :
    (inverseReal (init ++ [n]) P : Tensor κ α).shape = batch ++ init ++ [n] := by
  have haxes : P.axes = (batch ++ init).length + 1 := by
    unfold Tensor.axes
    rw [hP, List.length_append, List.length_append, List.length_append, hlength,
      List.length_singleton]
  have hfirst : P.axes - (init ++ [n]).length = batch.length := by
    rw [haxes, List.length_append, List.length_append, List.length_singleton]
    omega
  have hfull := shape_resized hlength hP
  show List.set (List.foldl _ P ((init ++ [n]).dropLast.zipIdx
    (P.axes - (init ++ [n]).length))).shape (P.axes - 1) ((init ++ [n]).getLastD 1) = _
  rw [List.dropLast_concat, hfirst, hfull, List.getLastD_concat, haxes, Nat.add_sub_cancel,
    set_last]

end Fourier

/-! ## §3. Signals and kernels. -/

namespace Convolution

variable [Kinds κ]

/-- Along each axis before the last the lengths fit, along the last one the bins do, and
nothing is empty. -/
def Accepts (init : List ℕ) (n : ℕ) (t : List ℕ) (m : ℕ) : Prop :=
  (∀ a ∈ t ++ [m], 0 < a) ∧ List.Forall₂ Fits t init ∧ (m / 2 = n / 2 ∨ m = 1 ∨ n = 1)

theorem fits_binCount {m n : ℕ} (hm : 0 < m) (hn : 0 < n) :
    Fits (binCount m) (binCount n) ↔ m / 2 = n / 2 ∨ m = 1 ∨ n = 1 := by
  unfold Fits binCount
  omega

/-- The bins of a real signal exist if none of the transformed axes is empty. -/
theorem signalBins_real {x : Tensor κ α} (hreal : Kinds.isComplex x.kind = false)
    {outer last : List ℕ} (hx : x.shape = outer ++ last) (hlast : last ≠ []) :
    (signalBins last.length x : Except (Failure R) _)
      = if last.any (· == 0) then .error .shapeMismatch
        else .ok (real last.length (x.cast (Kinds.floating x.kind))) := by
  have haxes : x.axes = outer.length + last.length := by
    unfold Tensor.axes
    rw [hx, List.length_append]
  have hdrop : x.shape.drop (x.axes - last.length) = last := by
    rw [haxes, Nat.add_sub_cancel, hx, List.drop_left]
  have hlength : last.length ≠ 0 := fun h => hlast (List.eq_nil_of_length_eq_zero h)
  unfold signalBins
  rw [hreal, if_neg Bool.false_ne_true, if_neg (by omega), hdrop, decide_eq_false hlength,
    Bool.false_or]

/-- What a convolution keeps of the shape of its kernel. -/
theorem ofKernel_shape {kernel : Tensor κ α} {normalize : Bool} {kind : κ} {c : Convolution κ α}
    (h : (ofKernel kernel normalize kind : Except (Failure R) _) = .ok c) {init : List ℕ} {n : ℕ}
    (hkernel : kernel.shape = init ++ [n]) :
    c.shape = init ++ [n] ∧ c.transfer.shape = init ++ [binCount n] ∧ 0 < n := by
  -- The weights have the shape of the kernel, also if they are divided by their sum.
  obtain ⟨weights, hshape, h⟩ : ∃ weights : Tensor κ α, weights.shape = kernel.shape
      ∧ (signalBins weights.axes weights >>= fun X => pure ⟨weights.shape, X⟩
        : Except (Failure R) _) = .ok c := by
    unfold ofKernel at h
    cases normalize with
    | false => exact ⟨kernel.cast kind, rfl, h⟩
    | true =>
      obtain ⟨weights, hweights, h⟩ := bind_eq_ok.1 h
      have hstretch := shape_zipWith hweights
      exact ⟨weights, (Option.some.inj ((stretch_nil_right _).symm.trans hstretch)).symm, h⟩
  obtain ⟨X, hX, h⟩ := bind_eq_ok.1 h
  cases h
  rw [hkernel] at hshape
  unfold signalBins at hX
  rw [Nat.sub_self, List.drop_zero, hshape] at hX
  split_ifs at hX with hcomplex haxes hempty
  cases hX
  rw [Bool.or_eq_true, not_or, List.any_eq_true] at hempty
  have hcast : (weights.cast (Kinds.floating weights.kind)).shape = init ++ [n] := hshape
  refine ⟨hshape, shape_real hcast _, Nat.pos_of_ne_zero fun hzero => hempty.2 ⟨n, ?_, ?_⟩⟩
  · rw [List.mem_append, List.mem_singleton]
    exact .inr rfl
  · exact beq_iff_eq.2 hzero

section Filter

variable {c : Convolution κ α} {factors : Tensor κ (Coefficient α)} {batch init t : List ℕ}
  {n m : ℕ} {x z : Tensor κ α}

/-- The combination of bins and factors that a filter makes. -/
def productOf (factors bins : Tensor κ (Coefficient α)) :
    Except (Failure R) (Tensor κ (Coefficient α)) :=
  let kind := Kinds.join bins.kind factors.kind
  zipWith kind (Coefficient.mul kind) (Coefficient.zero kind) (Coefficient.zero kind) bins factors

/-- A filter returns if nothing is empty and bins and factors are combined. -/
theorem filter_eq_ok (hreal : Kinds.isComplex x.kind = false) (hx : x.shape = batch ++ (t ++ [m]))
    (hlength : c.shape.length = (t ++ [m]).length) :
    (c.filter factors x : Except (Failure R) _) = .ok z ↔ (∀ a ∈ t ++ [m], 0 < a)
      ∧ ∃ product, (productOf factors (real (t ++ [m]).length
          (x.cast (Kinds.floating x.kind))) : Except (Failure R) _) = .ok product
        ∧ inverseReal c.shape product = z := by
  have hsignal := signalBins_real (R := R) hreal hx
    (List.append_ne_nil_of_right_ne_nil t (List.cons_ne_nil m []))
  have hfilter : (c.filter factors x : Except (Failure R) _)
      = signalBins (t ++ [m]).length x >>= fun bins =>
        productOf factors bins >>= fun product => pure (inverseReal c.shape product) := by
    rw [← hlength]
    rfl
  rw [hfilter]
  constructor
  · intro h
    -- There are bins only if no axis of the signal is empty.
    obtain ⟨bins, hbins, h⟩ := bind_eq_ok.1 h
    rw [hsignal] at hbins
    split_ifs at hbins with hempty
    cases hbins
    obtain ⟨product, hproduct, h⟩ := bind_eq_ok.1 h
    cases h
    refine ⟨fun a ha => Nat.pos_of_ne_zero fun hzero => hempty ?_, product, hproduct, rfl⟩
    exact List.any_eq_true.2 ⟨a, ha, beq_iff_eq.2 hzero⟩
  · rintro ⟨hpos, product, hproduct, rfl⟩
    rw [any_zero_eq_false hpos, if_neg Bool.false_ne_true] at hsignal
    apply bind_returns hsignal
    apply bind_returns hproduct
    rfl

theorem forall₂_concat {S : ℕ → ℕ → Prop} {s u : List ℕ} {a b : ℕ} :
    List.Forall₂ S (s ++ [a]) (u ++ [b]) ↔ List.Forall₂ S s u ∧ S a b := by
  rw [← List.forall₂_reverse_iff, List.reverse_concat, List.reverse_concat, List.forall₂_cons,
    List.forall₂_reverse_iff, and_comm]

/-- The bins of a signal and the factors that a filter multiplies them with. -/
theorem stretch_of_product {bins product : Tensor κ (Coefficient α)}
    (hbins : bins.shape = batch ++ (t ++ [binCount m]))
    (hfactors : factors.shape = init ++ [binCount n])
    (h : (productOf factors bins : Except (Failure R) _) = .ok product) :
    stretch (batch ++ (t ++ [binCount m])) (init ++ [binCount n]) = some product.shape := by
  have hstretch := shape_zipWith h
  rwa [hbins, hfactors] at hstretch

theorem shape_bins (hx : x.shape = batch ++ (t ++ [m])) (d : ℕ) :
    (real d (x.cast (Kinds.floating x.kind))).shape = batch ++ (t ++ [binCount m]) := by
  have hcast : (x.cast (Kinds.floating x.kind)).shape = batch ++ t ++ [m] :=
    hx.trans (List.append_assoc ..).symm
  rw [shape_real hcast, List.append_assoc]

theorem length_concat_eq (ht : t.length = init.length) (a b : ℕ) :
    (t ++ [a]).length = (init ++ [b]).length := by
  rw [List.length_append, List.length_append, ht]
  rfl

variable (hc : c.shape = init ++ [n]) (hfactors : factors.shape = init ++ [binCount n])
  (hreal : Kinds.isComplex x.kind = false) (hx : x.shape = batch ++ (t ++ [m]))
  (ht : t.length = init.length)

include hc hfactors hreal hx ht

/-- A signal is filtered exactly if it is accepted. -/
theorem filter_returns_iff (hn : 0 < n) :
    (∃ z, (c.filter factors x : Except (Failure R) _) = .ok z) ↔ Accepts init n t m := by
  have hlength : c.shape.length = (t ++ [m]).length := by
    rw [hc, length_concat_eq ht]
  have hbins := shape_bins hx (t ++ [m]).length
  constructor
  -- Bins and factors are combined if their shapes fit axis by axis, the last by its bins.
  · rintro ⟨z, hz⟩
    obtain ⟨hpos, product, hproduct, -⟩ := (filter_eq_ok hreal hx hlength).1 hz
    have hstretch := stretch_of_product hbins hfactors hproduct
    obtain ⟨hfits, hlast⟩ := forall₂_concat.1 (fits_of_stretch (length_concat_eq ht _ _) hstretch)
    have hm : 0 < m := hpos m (by simp)
    exact ⟨hpos, hfits, (fits_binCount hm hn).1 hlast⟩
  · rintro ⟨hpos, hfits, hlast⟩
    have hm : 0 < m := hpos m (by simp)
    obtain ⟨w, -, hw⟩ := stretch_of_fits
      (forall₂_concat.2 ⟨hfits, (fits_binCount hm hn).2 hlast⟩) batch
    rw [← hbins, ← hfactors] at hw
    exact ⟨_, (filter_eq_ok hreal hx hlength).2
      ⟨hpos, _, zipWith_of_stretch _ _ _ _ hw, rfl⟩⟩

/-- A filtered signal has the kernel's lengths. -/
theorem shape_of_filter (hz : (c.filter factors x : Except (Failure R) _) = .ok z) :
    z.shape = batch ++ (init ++ [n]) := by
  have hlength : c.shape.length = (t ++ [m]).length := by
    rw [hc, length_concat_eq ht]
  obtain ⟨-, product, hproduct, rfl⟩ := (filter_eq_ok hreal hx hlength).1 hz
  have hstretch := stretch_of_product (shape_bins hx _) hfactors hproduct
  -- The common shape has as many axes as the kernel, behind those of the batch.
  obtain ⟨w, hw, hshape⟩ := stretch_of_fits
    (fits_of_stretch (length_concat_eq ht _ _) hstretch) batch
  rw [hstretch, Option.some.injEq] at hshape
  obtain rfl | ⟨outer, h, rfl⟩ := List.eq_nil_or_concat w
  · simp at hw
  rw [List.concat_eq_append] at hw hshape
  rw [List.length_append, List.length_append] at hw
  rw [hc, ← List.append_assoc]
  exact shape_inverseReal (Nat.add_right_cancel hw) (hshape.trans (List.append_assoc ..).symm)

end Filter

/-! ## §4. The shapes of signals and results. -/

/-- **Which signals a convolution accepts, and what shape they come back in.**  The result
has the lengths of the kernel, so it has the shape of the signal only if the last axes of
the signal have those lengths. -/
theorem signal_accepted_iff {kernel : Tensor κ α} {normalize : Bool} {kind : κ}
    {c : Convolution κ α} (hc : (ofKernel kernel normalize kind : Except (Failure R) _) = .ok c)
    {init : List ℕ} {n : ℕ} (hkernel : kernel.shape = init ++ [n]) {x : Tensor κ α}
    (hreal : Kinds.isComplex x.kind = false) {batch t : List ℕ} {m : ℕ}
    (hx : x.shape = batch ++ (t ++ [m])) (ht : t.length = init.length) :
    ((∃ z, (c.forward x : Except (Failure R) _) = .ok z) ↔ Accepts init n t m)
      ∧ ((∃ z, (c.adjoint x : Except (Failure R) _) = .ok z) ↔ Accepts init n t m)
      ∧ ∀ z, (c.forward x : Except (Failure R) _) = .ok z
          ∨ (c.adjoint x : Except (Failure R) _) = .ok z →
        z.shape = batch ++ kernel.shape ∧ (z.shape = x.shape ↔ t ++ [m] = kernel.shape) := by
  obtain ⟨hshape, htransfer, hn⟩ := ofKernel_shape hc hkernel
  -- Both directions are filters, and conjugation changes no shape.
  have hconj : (c.transfer.map c.transfer.kind (Coefficient.conj c.transfer.kind)).shape
      = init ++ [binCount n] := htransfer
  refine ⟨filter_returns_iff hshape htransfer hreal hx ht hn,
    filter_returns_iff hshape hconj hreal hx ht hn, ?_⟩
  intro z hz
  have hzshape : z.shape = batch ++ kernel.shape := by
    rw [hkernel]
    cases hz with
    | inl hforward => exact shape_of_filter hshape htransfer hreal hx ht hforward
    | inr hadjoint => exact shape_of_filter hshape hconj hreal hx ht hadjoint
  rw [hzshape, hx]
  exact ⟨rfl, fun h => (List.append_cancel_left h).symm, fun h => by rw [h]⟩

/-- The vector that is 1 at place 0 and 0 elsewhere, the kernel that changes nothing. -/
noncomputable def impulse (n : ℕ) : Tensor Unit ℝ := tabulate () [n] fun i => if i = 0 then 1 else 0

/-- A kernel of length 8 accepts no signal of length 10. -/
theorem signal_accepted_iff_impulse : ∃ c : Convolution Unit ℝ,
    (ofKernel (impulse 8) true () : Except (Failure ℝ) _) = .ok c
      ∧ (impulse 8).shape = [] ++ [8] ∧ Kinds.isComplex (impulse 10).kind = false
      ∧ (impulse 10).shape = [] ++ ([] ++ [10]) ∧ ([] : List ℕ).length = ([] : List ℕ).length
      ∧ ¬∃ z, (c.forward (impulse 10) : Except (Failure ℝ) _) = .ok z := by
  obtain ⟨c, hc⟩ := ofKernel_returns (impulse 8) true (Nat.succ_ne_zero 0) (by decide)
  have hkernel : (impulse 8).shape = [] ++ [8] := rfl
  have hsignal : (impulse 10).shape = [] ++ ([] ++ [10]) := rfl
  have hiff := signal_accepted_iff hc hkernel rfl hsignal rfl
  refine ⟨c, hc, rfl, rfl, rfl, rfl, ?_⟩
  intro hreturns
  obtain ⟨-, -, hlast⟩ := hiff.1.1 hreturns
  omega

/-- **A longer signal is accepted and comes back shorter.**  Lines of the lengths 8 and 9
both have 5 bins. -/
theorem longer_signal_accepted : ∃ (c : Convolution Unit ℝ) (z : Tensor Unit ℝ),
    (ofKernel (impulse 8) true () : Except (Failure ℝ) _) = .ok c
      ∧ (impulse 9).shape = [9] ∧ (c.forward (impulse 9) : Except (Failure ℝ) _) = .ok z
      ∧ z.shape = [8] := by
  obtain ⟨c, hc⟩ := ofKernel_returns (impulse 8) true (Nat.succ_ne_zero 0) (by decide)
  have hkernel : (impulse 8).shape = [] ++ [8] := rfl
  have hsignal : (impulse 9).shape = [] ++ ([] ++ [9]) := rfl
  obtain ⟨hshape, htransfer, hn⟩ := ofKernel_shape hc hkernel
  -- Half of 9 is half of 8.
  obtain ⟨z, hz⟩ := (filter_returns_iff hshape htransfer rfl hsignal rfl hn).2
    ⟨by decide, .nil, .inl rfl⟩
  exact ⟨c, z, hc, rfl, hz, shape_of_filter hshape htransfer rfl hsignal rfl hz⟩

end Convolution

end PrimalDual
