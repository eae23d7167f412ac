/-
  PrimalDual.Operator.Convolution
  ───────────────────────────────
  **CIRCULAR CONVOLUTION THROUGH THE FOURIER TRANSFORM.**

  A convolution is held as the transfer function of its kernel: the bins of
  the kernel over all its axes.  Applying it multiplies the bins of the signal
  over the same number of last axes by the transfer function; its adjoint
  multiplies by the conjugate.  Axes in front of these are independent
  signals.

  The product is read back as a tensor of the kernel's axis lengths.  Bins are
  compared only through their number, so a signal whose bins fit those of the
  kernel is accepted even where its length differs.
-/
import PrimalDual.Tensor.Sum
import PrimalDual.Fourier.Transform

namespace PrimalDual

/-- A circular convolution. -/
structure Convolution (κ α : Type) where
  /-- The axis lengths of the kernel. -/
  shape : List Nat
  /-- The bins of the kernel. -/
  transfer : Tensor κ (Coefficient α)

namespace Convolution

variable {κ α R : Type} [Control R] [Kinds κ] [Entry α R κ]

/-- The bins of a real signal over its last `d` axes.  Integers are read as
reals; a complex signal, a missing axis and an axis without entries among
those `d` are refused. -/
def signalBins (d : Nat) (x : Tensor κ α) : Except (Failure R) (Tensor κ (Coefficient α)) :=
  if Kinds.isComplex x.kind then .error .complexSignal
  else if x.axes < d then .error .axisRange
  else if d = 0 || (x.shape.drop (x.axes - d)).any (· == 0) then .error .shapeMismatch
  else .ok (Fourier.real d (x.cast (Kinds.floating x.kind)))

/-- The convolution with a kernel held in a kind, divided by the sum of its
entries if `normalize` is set. -/
def ofKernel (kernel : Tensor κ α) (normalize : Bool) (kind : κ) :
    Except (Failure R) (Convolution κ α) := do
  let held := kernel.cast kind
  let weights ← if normalize then held.div held.sum else pure held
  return ⟨weights.shape, ← signalBins weights.axes weights⟩

/-- The signal with the bins of `x` multiplied by given factors. -/
def filter (c : Convolution κ α) (factors : Tensor κ (Coefficient α)) (x : Tensor κ α) :
    Except (Failure R) (Tensor κ α) := do
  let bins ← signalBins c.shape.length x
  let kind := Kinds.join bins.kind factors.kind
  let zero := Coefficient.zero kind
  let product ← Tensor.zipWith kind (Coefficient.mul kind) zero zero bins factors
  return Fourier.inverseReal c.shape product

/-- Convolution with the kernel. -/
def forward (c : Convolution κ α) (x : Tensor κ α) : Except (Failure R) (Tensor κ α) :=
  c.filter c.transfer x

/-- Correlation with the kernel. -/
def adjoint (c : Convolution κ α) (y : Tensor κ α) : Except (Failure R) (Tensor κ α) :=
  c.filter (c.transfer.map c.transfer.kind (Coefficient.conj c.transfer.kind)) y

end Convolution

end PrimalDual
