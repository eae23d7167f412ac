/-
  PrimalDual.Proofs.Operator.ImageShape
  ─────────────────────────────────────
  **THE SHAPE OF AN IMAGE IS DETERMINED BY THE SHAPE OF ITS TENSOR.**

  No operator announces the shapes that it takes and gives.  What can be
  said of each of them, in any arithmetic, is that the entries of a tensor
  play no part in the shape of its image: tensors of one shape whose images
  exist have images of one shape.

      rotations         keep the shape
      sums, products    have the common shape of their operands
      matrix products   have the shape that the two shapes name
      filters           have the inverse's lengths, after the bins were stretched
      cuts, reshapes    read no entry

  So `Sends f s t`, some tensor of shape `s` has an image of shape `t`, is a
  function of `s` for both directions of every operator, provided that the
  maps of the caller in it are of this sort (`Dependable.shapesImages`).
-/
import PrimalDual.Proofs.Operator.SignalShape

namespace PrimalDual

open Tensor
open PrimalDual.Fourier

variable {κ α R : Type}

/-! ## §1. Maps that read no entry for a shape. -/

section Maps

variable {f g : Tensor κ α → Except (Failure R) (Tensor κ α)} {s t : List ℕ} {x u : Tensor κ α}

/-- Some tensor of shape `s` is mapped to one of shape `t`. -/
def Sends (f : Tensor κ α → Except (Failure R) (Tensor κ α)) (s t : List ℕ) : Prop :=
  ∃ x u, x.shape = s ∧ f x = .ok u ∧ u.shape = t

/-- Tensors of one shape have images of one shape. -/
def ShapesImages (f : Tensor κ α → Except (Failure R) (Tensor κ α)) : Prop :=
  Relator.RightUnique (Sends f)

theorem sends_of_ok (hx : x.shape = s) (hu : f x = .ok u) : Sends f s u.shape :=
  ⟨x, u, hx, hu, rfl⟩

/-- The shape of an image may be computed from the shape of the tensor. -/
theorem shapesImages_of (shape : List ℕ → Option (List ℕ))
    (h : ∀ x u, f x = .ok u → shape x.shape = some u.shape) : ShapesImages f := by
  rintro s t t' ⟨x, u, rfl, hu, rfl⟩ ⟨x', u', hx', hu', rfl⟩
  have hshape := h x' u' hu'
  rw [hx', h x u hu] at hshape
  exact Option.some.inj hshape

/-- Or from what another map makes of that shape. -/
theorem ShapesImages.of_sends (hg : ShapesImages g) (before after : List ℕ → Option (List ℕ))
    (h : ∀ x u, f x = .ok u → ∃ s t, before x.shape = some s ∧ Sends g s t
      ∧ after t = some u.shape) : ShapesImages f := by
  rintro s t t' ⟨x, u, rfl, hu, rfl⟩ ⟨x', u', hx', hu', rfl⟩
  obtain ⟨a, b, hbefore, hsends, hafter⟩ := h x u hu
  obtain ⟨a', b', hbefore', hsends', hafter'⟩ := h x' u' hu'
  rw [hx', hbefore, Option.some.injEq] at hbefore'
  subst hbefore'
  rw [← hg hsends hsends', hafter] at hafter'
  exact Option.some.inj hafter'

end Maps

variable [Control R] [Kinds κ] [Entry α R κ]

/-! ## §2. The operations. -/

namespace Tensor

variable {M x u : Tensor κ α}

omit [Kinds κ] in
/-- What is turned around a circle keeps its shape. -/
theorem shape_rotate {t axis : ℤ} (h : (x.rotate t axis : Except (Failure R) _) = .ok u) :
    u.shape = x.shape := by
  unfold rotate at h
  split_ifs at h
  · cases h
    rfl
  · cases haxis : axisOf x.axes axis with
    | none =>
      rw [haxis] at h
      cases h
    | some p =>
      rw [haxis] at h
      cases h
      show x.shape.set p (x.shape.getD p 1) = x.shape
      by_cases hp : p < x.shape.length
      · exact set_axis hp
      · exact List.set_eq_of_length_le (not_lt.1 hp)

theorem shapesImages_difference (t axis : ℤ) :
    ShapesImages fun x : Tensor κ α =>
      (x.rotate t axis >>= fun w => w.sub x : Except (Failure R) _) := by
  apply shapesImages_of some
  intro x u h
  obtain ⟨w, hw, h⟩ := bind_eq_ok.1 h
  have hstretch := shape_zipWith h
  rwa [shape_rotate hw, stretch_self] at hstretch

/-- The part of a shape before a cut of its first axis, and that after it. -/
def cutShape (s : List ℕ) (cut : ℤ) : List ℕ × List ℕ :=
  let n := cutPoint (s.headD 0) cut
  (n :: s.tail, (s.headD 0 - n) :: s.tail)

/-- The shape of a product of matrices, from those of its factors. -/
def shapeOfProduct (s t : List ℕ) : Option (List ℕ) :=
  (Matrices.left? s).bind fun l => (Matrices.right? t).bind fun r =>
    (stretch l.batch r.batch).map fun batch => productShape batch l.rows r.columns s.length t.length

theorem shape_multiply {rowsInOrder : Bool}
    (h : (M.multiply rowsInOrder x : Except (Failure R) _) = .ok u) :
    shapeOfProduct M.shape x.shape = some u.shape := by
  unfold multiply at h
  unfold shapeOfProduct
  -- A product that is refused has no shape; what is left is one match of the two definitions.
  cases hl : Matrices.left? M.shape with
  | none =>
    rw [hl] at h
    cases h
  | some l =>
    cases hr : Matrices.right? x.shape with
    | none =>
      rw [hl, hr] at h
      cases h
    | some r =>
      rw [hl, hr] at h
      dsimp only at h
      split_ifs at h
      cases hbatch : stretch l.batch r.batch with
      | none =>
        rw [hbatch] at h
        cases h
      | some batch =>
        rw [hbatch] at h
        dsimp only at h
        split at h
        · cases h
        · cases h
          rw [Option.bind_some, Option.bind_some, hbatch]
          rfl

theorem shapesImages_multiply (M : Tensor κ α) (rowsInOrder : Bool) :
    ShapesImages fun x => (M.multiply rowsInOrder x : Except (Failure R) _) :=
  shapesImages_of (shapeOfProduct M.shape) fun _ _ h => shape_multiply h

theorem shapesImages_adjointMatmul (M : Tensor κ α) :
    ShapesImages fun x => (M.adjointMatmul x : Except (Failure R) _) := by
  rintro s t t' ⟨x, u, hx, hu, rfl⟩ ⟨x', u', hx', hu', rfl⟩
  obtain ⟨N, hN, hu⟩ := bind_eq_ok.1 hu
  obtain ⟨N', hN', hu'⟩ := bind_eq_ok.1 hu'
  cases hN.symm.trans hN'
  exact shapesImages_multiply N _ ⟨x, u, hx, hu, rfl⟩ ⟨x', u', hx', hu', rfl⟩

end Tensor

namespace Fourier

omit [Control R] [Kinds κ] [Entry α R κ] in
/-- Steps that read only the shape leave a shape that was read from the shape. -/
theorem shape_foldl_congr {β γ : Type} {f : Tensor κ β → γ → Tensor κ β}
    (hf : ∀ c X Y, X.shape = Y.shape → (f X c).shape = (f Y c).shape) (steps : List γ)
    {X Y : Tensor κ β} (h : X.shape = Y.shape) :
    (steps.foldl f X).shape = (steps.foldl f Y).shape := by
  induction steps generalizing X Y with
  | nil => exact h
  | cons c steps ih => exact ih (hf c X Y h)

omit [Kinds κ] in
/-- The inverse reads no entry for its shape. -/
theorem shape_inverseReal_congr {P Q : Tensor κ (Coefficient α)} (h : P.shape = Q.shape)
    (lengths : List ℕ) :
    (inverseReal lengths P : Tensor κ α).shape = (inverseReal lengths Q : Tensor κ α).shape := by
  have haxes : P.axes = Q.axes := congrArg List.length h
  show List.set (List.foldl _ P _).shape (P.axes - 1) _
    = List.set (List.foldl _ Q _).shape (Q.axes - 1) _
  rw [haxes]
  refine congrArg (List.set · _ _) (shape_foldl_congr ?_ _ h)
  intro line X Y hXY
  exact congrArg (List.set · line.2 line.1) hXY

end Fourier

theorem Convolution.shapesImages_filter (c : Convolution κ α)
    (factors : Tensor κ (Coefficient α)) :
    ShapesImages fun x => (c.filter factors x : Except (Failure R) _) := by
  -- What there is before the inverse: the common shape of bins and factors.
  have hproduct : ∀ x u, (c.filter factors x : Except (Failure R) _) = .ok u →
      ∃ product : Tensor κ (Coefficient α), inverseReal c.shape product = u
        ∧ stretch (x.shape.set (x.axes - 1) (x.shape.getD (x.axes - 1) 1 / 2 + 1)) factors.shape
          = some product.shape := by
    intro x u h
    obtain ⟨bins, hbins, h⟩ := bind_eq_ok.1 h
    obtain ⟨product, hproduct, h⟩ := bind_eq_ok.1 h
    cases h
    unfold signalBins at hbins
    split_ifs at hbins
    cases hbins
    have hstretch := shape_zipWith hproduct
    rw [shape_real_set] at hstretch
    exact ⟨product, rfl, hstretch⟩
  rintro s t t' ⟨x, u, rfl, hu, rfl⟩ ⟨x', u', hx', hu', rfl⟩
  obtain ⟨P, rfl, hP⟩ := hproduct x u hu
  obtain ⟨P', rfl, hP'⟩ := hproduct x' u' hu'
  have haxes : x'.axes = x.axes := congrArg List.length hx'
  rw [haxes, hx', hP] at hP'
  exact shape_inverseReal_congr (Option.some.inj hP') c.shape

/-! ## §3. The operators. -/

namespace Operator

variable {op A B : Operator (Except (Failure R)) R κ α}

/-- The maps of the caller in an operator give tensors of one shape images of one shape. -/
def Dependable : Operator (Except (Failure R)) R κ α → Prop
  | maps f g => ShapesImages f ∧ ShapesImages g
  | modal f => ShapesImages (f · forwardMode) ∧ ShapesImages (f · adjointMode)
  | flattened op _ => op.Dependable
  | stacked A B _ => A.Dependable ∧ B.Dependable
  | matrix _ | identity | difference _ | convolution _ => True

theorem shapesImages_flattened (h : ShapesImages op.forward ∧ ShapesImages op.adjoint)
    (rangeShape : List ℤ) : ShapesImages (flattened op rangeShape).forward
      ∧ ShapesImages (flattened op rangeShape).adjoint := by
  constructor
  · apply h.1.of_sends some (fun t => some [t.prod])
    intro x u hu
    obtain ⟨w, hw, hu⟩ := bind_eq_ok.1 hu
    cases hu
    exact ⟨x.shape, w.shape, rfl, sends_of_ok rfl hw, by rw [shape_flatten, size_eq]⟩
  · apply h.2.of_sends (fun s => inferShape s.prod rangeShape) some
    intro y u hu
    obtain ⟨z, hz, hu⟩ := bind_eq_ok.1 hu
    obtain ⟨shape, hshape, hinfer, rfl⟩ := reshape_eq_ok.1 hz
    rw [size_eq] at hinfer
    exact ⟨shape, u.shape, hinfer, sends_of_ok rfl hu, rfl⟩

/-- A stacked operator lays the images of its blocks end to end. -/
theorem sends_stacked_forward {q : Quantity R} {x w : Tensor κ α}
    (h : (stacked A B q).forward x = .ok w) :
    ∃ u v, Sends A.forward x.shape u ∧ Sends B.forward x.shape v
      ∧ w.shape = [u.prod + v.prod] := by
  obtain ⟨u, hu, h⟩ := bind_eq_ok.1 h
  obtain ⟨v, hv, h⟩ := bind_eq_ok.1 h
  refine ⟨u.shape, v.shape, sends_of_ok rfl hu, sends_of_ok rfl hv, ?_⟩
  rw [shape_append h, size_flatten, size_flatten, size_eq, size_eq]

/-- Its adjoint adds what the blocks make of the two parts of a tensor. -/
theorem sends_stacked_adjoint {q : Quantity R} {y w : Tensor κ α}
    (h : (stacked A B q).adjoint y = .ok w) :
    ∃ cut u v, (cutBefore y.shape.prod q : Except (Failure R) _) = .ok cut
      ∧ Sends A.adjoint (cutShape y.shape cut).1 u ∧ Sends B.adjoint (cutShape y.shape cut).2 v
      ∧ stretch u v = some w.shape := by
  obtain ⟨cut, lead, u, trail, v, hcut, hlead, hu, htrail, hv, h⟩ := adjoint_stacked_ok h
  refine ⟨cut, u.shape, v.shape, ?_, sends_of_ok (shape_rows hlead) hu,
    sends_of_ok (shape_rows htrail) hv, shape_zipWith h⟩
  rw [← size_eq]
  exact hcut

theorem shapesImages_stacked (hA : ShapesImages A.forward ∧ ShapesImages A.adjoint)
    (hB : ShapesImages B.forward ∧ ShapesImages B.adjoint) (q : Quantity R) :
    ShapesImages (stacked A B q).forward ∧ ShapesImages (stacked A B q).adjoint := by
  constructor
  · rintro s t t' ⟨x, w, rfl, hw, rfl⟩ ⟨x', w', hx', hw', rfl⟩
    obtain ⟨u, v, hu, hv, hshape⟩ := sends_stacked_forward hw
    obtain ⟨u', v', hu', hv', hshape'⟩ := sends_stacked_forward hw'
    rw [hx'] at hu' hv'
    rw [hshape, hshape', hA.1 hu hu', hB.1 hv hv']
  · rintro s t t' ⟨y, w, rfl, hw, rfl⟩ ⟨y', w', hy', hw', rfl⟩
    obtain ⟨cut, u, v, hcut, hu, hv, hshape⟩ := sends_stacked_adjoint hw
    obtain ⟨cut', u', v', hcut', hu', hv', hshape'⟩ := sends_stacked_adjoint hw'
    -- The cut is found from the shape alone, and so are the two parts.
    rw [hy', hcut, Except.ok.injEq] at hcut'
    subst hcut'
    rw [hy'] at hu' hv'
    rw [hA.2 hu hu', hB.2 hv hv', hshape'] at hshape
    exact (Option.some.inj hshape).symm

/-- **The shape of an image is determined by the shape of its tensor**, in both directions. -/
theorem Dependable.shapesImages (h : op.Dependable) :
    ShapesImages op.forward ∧ ShapesImages op.adjoint := by
  induction op with
  | matrix M => exact ⟨shapesImages_multiply M true, shapesImages_adjointMatmul M⟩
  | identity =>
    have hkeeps : ShapesImages fun x : Tensor κ α => (.ok x : Except (Failure R) _) :=
      shapesImages_of some fun x u hu => by
        cases hu
        rfl
    exact ⟨hkeeps, hkeeps⟩
  | difference axis => exact ⟨shapesImages_difference (-1) axis, shapesImages_difference 1 axis⟩
  | convolution c => exact ⟨c.shapesImages_filter _, c.shapesImages_filter _⟩
  | maps f g => exact h
  | modal f => exact h
  | flattened op rangeShape ih => exact shapesImages_flattened (ih h) rangeShape
  | stacked A B q ihA ihB => exact shapesImages_stacked (ihA h.1) (ihB h.2) q

end Operator

end PrimalDual
