/-
  PrimalDual.Proofs.Operator.Language
  ───────────────────────────────────
  **THE ADJOINT IDENTITY FOR EVERY OPERATOR OF THE LANGUAGE.**

  `Built D op` says that `op` is put together on the tensors of shape `D`
  as it is meant to be:

      a matrix, the identity, a difference along any axis
      the convolution with a real kernel, if the last axes of `D` are its axes
      maps of the caller, if they keep their promise to be mutually adjoint
      a flattened operator with the shape of the range of its operator
      a stacked operator with the number of entries of its lower range,
        both blocks built on `D` and the shapes of their ranges stated
        where these are not vectors

  By induction over this construction the two directions of `op` are mutually
  adjoint on `D`: the base cases are the theorems of the modules before this
  one, the two constructors that nest operators are `adjoint_flattened` and
  `adjoint_stacked`.
-/
import PrimalDual.Proofs.Operator.AlongAxis
import PrimalDual.Proofs.Operator.Convolution

namespace PrimalDual

open Tensor

namespace Operator

/-! ## §1. Checked construction. -/

section Construction

variable {m : Type → Type} {R κ α : Type} {op A B K : Operator m R κ α}

theorem ofMatrix_ok {M : Tensor κ α} (h : (ofMatrix M : Except (Failure R) _) = .ok op) :
    op = matrix M ∧ M.axes = 2 := by
  unfold ofMatrix at h
  split_ifs at h with haxes
  cases h
  exact ⟨rfl, haxes⟩

/-- What the checked construction of a stacked operator returns. -/
theorem stack_ok [Control R] {q : Quantity R} {shapeA shapeB : Option (List ℤ)}
    (h : stack A B q shapeA shapeB = .ok K) :
    K = stacked (A.inShape shapeA) (B.inShape shapeB) q := by
  unfold stack at h
  obtain ⟨-, h⟩ := guard_ok h
  cases shapeB with
  | none =>
    cases h
    rfl
  | some shape =>
    dsimp only at h
    split_ifs at h
    cases h
    rfl

/-- The checked construction leaves no doubt about the entries of the lower range. -/
theorem stack_range [Control R] {q : ℕ} {Q : List ℕ}
    (h : A.stack B (.whole q) none (some (Q.map Int.ofNat)) = .ok K) :
    Q.prod = q ∧ K = .stacked A (.flattened B (Q.map Int.ofNat)) (.whole q) := by
  refine ⟨?_, stack_ok h⟩
  unfold stack at h
  obtain ⟨-, h⟩ := guard_ok h
  simp only [prod_map_ofNat] at h
  split_ifs at h with hentries
  exact Int.ofNat_inj.1 (of_decide_eq_true hentries)

end Construction

variable {𝕜 : Type} [RCLike 𝕜]
variable {D : List ℕ} {op A B K : Operator (Except (Failure ℝ)) ℝ Unit 𝕜}

/-! ## §2. Stated ranges. -/

/-- The shape of the range is stated as it is; it may be left out where the values are
vectors. -/
def RangeStated (D : List ℕ) (op : Operator (Except (Failure ℝ)) ℝ Unit 𝕜) :
    Option (List ℤ) → Prop
  | some shape => ∃ s : List ℕ, shape = s.map Int.ofNat ∧ RangeShape D op s
  | none => ∀ x, x.shape = D → ∀ u, op.forward x = .ok u → ∃ m, u.shape = [m]

theorem Returns.stated {s : List ℕ} (h : Returns D op s) :
    RangeStated D op (some (s.map Int.ofNat)) :=
  ⟨s, rfl, h.rangeShape⟩

/-- The range of the operator has `q` entries. -/
def RangeSize (D : List ℕ) (op : Operator (Except (Failure ℝ)) ℝ Unit 𝕜) (q : ℕ) : Prop :=
  ∀ x, x.shape = D → ∀ u, op.forward x = .ok u → u.size = q

/-- Read in its stated shape, an operator has vectors as values, with as many entries. -/
theorem forward_inShape {shape : Option (List ℤ)} (hrange : RangeStated D op shape)
    {x u : Tensor Unit 𝕜} (hx : x.shape = D) (hu : (op.inShape shape).forward x = .ok u) :
    ∃ w, op.forward x = .ok w ∧ u.shape = [w.size] := by
  cases shape with
  | none =>
    obtain ⟨m, hm⟩ := hrange x hx u hu
    refine ⟨u, hu, ?_⟩
    rw [size_of_vector hm, hm]
  | some shape =>
    obtain ⟨w, hw, hu⟩ := bind_eq_ok.1 hu
    cases hu
    exact ⟨w, hw, shape_flatten w⟩

theorem adjoint_inShape {shape : Option (List ℤ)} (hrange : RangeStated D op shape)
    (h : MutuallyAdjoint D op.forward op.adjoint) :
    MutuallyAdjoint D (op.inShape shape).forward (op.inShape shape).adjoint := by
  cases shape with
  | none => exact h
  | some shape =>
    obtain ⟨s, rfl, hs⟩ := hrange
    exact adjoint_flattened hs h

/-! ## §3. The language. -/

/-- An operator put together on the tensors of shape `D`. -/
inductive Built (D : List ℕ) : Operator (Except (Failure ℝ)) ℝ Unit 𝕜 → Prop where
  | matrix {M op} (h : ofMatrix M = .ok op) : Built D op
  | identity : Built D identity
  | difference (axis : ℤ) : Built D (difference axis)
  | convolution {kernel normalize c} (batch : List ℕ) (hreal : ∀ i, IsSelfAdjoint (kernel.entry i))
      (hkernel : Convolution.ofKernel kernel normalize () = .ok c)
      (hD : D = batch ++ kernel.shape) : Built D (convolution c)
  | maps {f g} (h : MutuallyAdjoint D f g) : Built D (maps f g)
  | modal {f} (h : MutuallyAdjoint D (f · forwardMode) (f · adjointMode)) : Built D (modal f)
  | flattened {op s} (hop : Built D op) (hs : RangeShape D op s) :
      Built D (flattened op (s.map Int.ofNat))
  | stacked {A B K shapeA shapeB} {q : ℕ} (hA : Built D A) (hB : Built D B)
      (hshapeA : RangeStated D A shapeA) (hshapeB : RangeStated D B shapeB)
      (hq : RangeSize D B q) (hK : stack A B (.whole q) shapeA shapeB = .ok K) : Built D K

/-- **The adjoint identity.**  Where an operator returns, its adjoint accepts every tensor of
the shape of the value, returns to the domain, and `⟨A x, y⟩ = ⟨x, Aᴴ y⟩`. -/
theorem Built.mutually_adjoint (h : Built D op) : MutuallyAdjoint D op.forward op.adjoint := by
  induction h with
  | matrix h =>
    obtain ⟨rfl, haxes⟩ := ofMatrix_ok h
    exact adjoint_matrix haxes D
  | identity => exact adjoint_identity
  | difference axis => exact adjoint_difference axis D
  | convolution batch hreal hkernel hD =>
    subst hD
    exact Convolution.adjoint_convolution hreal hkernel batch
  | maps h => exact h
  | modal h => exact h
  | flattened _ hs ih => exact adjoint_flattened hs ih
  | stacked _ _ hshapeA hshapeB hq hK ihA ihB =>
    -- Each block is read in its stated shape, and the stated size tells where they are cut.
    cases stack_ok hK
    refine adjoint_stacked ?_ ?_
      (adjoint_inShape hshapeA ihA) (adjoint_inShape hshapeB ihB)
    · intro x hx u hu
      obtain ⟨w, -, hw⟩ := forward_inShape hshapeA hx hu
      exact ⟨_, hw⟩
    · intro x hx v hv
      obtain ⟨w, hw, hvshape⟩ := forward_inShape hshapeB hx hv
      rw [hvshape, hq x hx w hw]

/-- A blur of the rows of an image stacked on their differences. -/
theorem mutually_adjoint_blur :
    ∃ (c : Convolution Unit ℝ) (K : Operator (Except (Failure ℝ)) ℝ Unit ℝ) (u v : Tensor Unit ℝ),
      Convolution.ofKernel (tabulate () [2] fun i => if i = 0 then (2 : ℝ) else 1) true () = .ok c
      ∧ stack (convolution c) (difference (-1)) (.whole 4) (some [2, 2]) (some [2, 2]) = .ok K
      ∧ K.forward (tabulate () [2, 2] fun i => (i : ℝ)) = .ok u ∧ u.shape = [8]
      ∧ K.adjoint u = .ok v ∧ v.shape = [2, 2]
      ∧ dot u u = dot (tabulate () [2, 2] fun i => (i : ℝ)) v := by
  have hreal : ∀ i, IsSelfAdjoint
      ((tabulate () [2] fun i => if i = 0 then (2 : ℝ) else 1).entry i) := fun i => .all _
  obtain ⟨c, hc⟩ := Convolution.ofKernel_returns
    (tabulate () [2] fun i => if i = 0 then (2 : ℝ) else 1) true (by decide) (by decide)
  have hblur : Returns [2, 2] (convolution c) [2, 2] :=
    Convolution.returns_convolution hreal hc [2]
  have hdifference : Returns [2, 2]
      (difference (-1) : Operator (Except (Failure ℝ)) ℝ Unit ℝ) [2, 2] :=
    returns_difference (p := 1) rfl
  have hK : stack (convolution c) (difference (-1)) (.whole 4) (some [2, 2]) (some [2, 2])
      = .ok (stacked (flattened (convolution c) [2, 2])
        (flattened (difference (-1) : Operator (Except (Failure ℝ)) ℝ Unit ℝ) [2, 2]) (.whole 4)) :=
    rfl
  have hshapeA : RangeStated [2, 2] (convolution c) (some [2, 2]) := hblur.stated
  have hshapeB : RangeStated [2, 2]
      (difference (-1) : Operator (Except (Failure ℝ)) ℝ Unit ℝ) (some [2, 2]) := hdifference.stated
  have hsize : RangeSize [2, 2] (difference (-1) : Operator (Except (Failure ℝ)) ℝ Unit ℝ) 4 := by
    intro x hx u hu
    rw [size_eq, hdifference.rangeShape x hx u hu]
    rfl
  have hbuilt := Built.stacked (.convolution [2] hreal hc rfl) (.difference (-1)) hshapeA hshapeB
    hsize hK
  obtain ⟨u, hu, hushape⟩ := returns_stacked (returns_flattened hblur [2, 2])
    (returns_flattened hdifference [2, 2]) (.whole 4) (tabulate () [2, 2] fun i => (i : ℝ)) rfl
  obtain ⟨v, hv, hvshape, hdot⟩ := hbuilt.mutually_adjoint _ rfl u hu u rfl
  exact ⟨c, _, u, v, hc, hK, hu, hushape, hv, hvshape, hdot⟩

end Operator

end PrimalDual
