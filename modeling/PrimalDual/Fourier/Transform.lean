/-
  PrimalDual.Fourier.Transform
  ────────────────────────────
  **THE DISCRETE FOURIER TRANSFORM OF REAL TENSORS.**

  The transform of a real line of length `n` is conjugate-symmetric, so the
  bins `0 … n/2` hold all of it.  A tensor is transformed over its last `d`
  axes: the last one keeps those `n/2 + 1` bins, the others are transformed
  in full.  The inverse takes the lengths of the axes it restores; along each
  axis it reads only the bins that belong to that length.

      real d x                 bins of a real tensor
      inverseReal lengths s    the real tensor with those bins
-/
import PrimalDual.Fourier.Line
import PrimalDual.Tensor.Line

namespace PrimalDual

namespace Fourier

variable {κ α R : Type} [Control R] [Entry α R κ]

/-- A tensor with its lines along an axis transformed as complex lines of length `n`. -/
def alongComplex (d : Direction) (p n : Nat) (s : Tensor κ (Coefficient α)) :
    Tensor κ (Coefficient α) :=
  let k := s.kind
  let zero := Coefficient.zero k
  s.mapLines k zero zero p n
    (complexBins k d (stages k (Control.complexRadices R n).factors))

/-- The bins of a real tensor over its last `d` axes. -/
def real (d : Nat) (x : Tensor κ α) : Tensor κ (Coefficient α) :=
  let k := x.kind
  let last := x.axes - 1
  let n := x.shape.getD last 1
  let half := x.mapLines k (Entry.zero k) (Coefficient.zero k) last (n / 2 + 1)
    (realBins k (stages k (Control.realRadices R n).factors))
  (List.range' (x.axes - d) (d - 1)).foldl (fun s p =>
    alongComplex .forward p (s.shape.getD p 1) s) half

/-- The real tensor of the given last axis lengths with the given bins. -/
def inverseReal (lengths : List Nat) (s : Tensor κ (Coefficient α)) : Tensor κ α :=
  let k := s.kind
  let first := s.axes - lengths.length
  let full := (lengths.dropLast.zipIdx first).foldl (fun s (n, p) =>
    alongComplex .inverse p n s) s
  let n := lengths.getLastD 1
  let lines := full.mapLines k (Coefficient.zero k) (Entry.zero k) (s.axes - 1) n
    (realLine k (stages k (Control.realRadices R n).factors))
  -- The transforms leave every entry multiplied by the number of bins.
  let count : α := Entry.ofControl k (Control.ofInt lengths.prod : R)
  let share := Entry.div k (Entry.one k) count
  lines.map k fun a => Entry.mul k a share

end Fourier

end PrimalDual
