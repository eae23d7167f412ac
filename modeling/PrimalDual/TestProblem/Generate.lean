/-
  PrimalDual.TestProblem.Generate
  ───────────────────────────────
  **TEST PROBLEMS WITH A KNOWN SOLUTION.**

  Ground truth, measurements and noise for sparse and piecewise-constant
  recovery:

      sparse           a signal with `k` entries of magnitude in [1, 2)
      compressed       a matrix with unit columns, a sparse signal, its image
      piecewise        a signal that is constant but for `s` jumps
      boundedNoise     data with noise of a stated Euclidean norm

  All of them are determined by the draws of a `Source`.
-/
import PrimalDual.Tensor.Line
import PrimalDual.Tensor.Sum
import PrimalDual.TestProblem.Source

namespace PrimalDual

namespace TestProblem

variable {m : Type → Type} {κ α R : Type} [Control R] [Kinds κ] [Entry α R κ]
variable [Monad m] [MonadLiftT (Except (Failure R)) m]

/-! ## §1. Signals as functions of the draws. -/

/-- The sign that a position of the list `[-1, 1]` names. -/
def sign (i : Nat) : R := if i = 0 then Control.ofInt (-1) else Control.one

/-- Magnitudes with signs. -/
def signed (signs : List Nat) (magnitudes : List R) : List R :=
  List.zipWith (fun s r => sign s * r) signs magnitudes

/-- A tensor of double precision from control numbers in row-major order. -/
def ofControls (shape : List Nat) (values : Array R) : Tensor κ α :=
  Tensor.tabulate Kinds.wide shape fun i =>
    Entry.ofControl Kinds.wide (values.getD i Control.zero)

/-- The value assigned to a position: the last one, or zero. -/
def assigned (pairs : List (Nat × R)) (i : Nat) : R :=
  ((pairs.reverse.find? fun p => p.1 == i).map Prod.snd).getD Control.zero

/-- The signal of length `n` with values at the positions of a support. -/
def scatter (n : Nat) (support : List Nat) (values : List R) : Tensor κ α :=
  ofControls [n] ((Array.range n).map (assigned (support.zip values)))

/-- The level at position `i`: the sum of the jumps up to there. -/
def level (jumps : List (Nat × R)) (i : Nat) : R :=
  jumps.foldl (fun s j => if j.1 ≤ i then s + j.2 else s) Control.zero

/-- The signal of length `n` that jumps at the given positions. -/
def staircase (n : Nat) (positions : List Nat) (jumps : List R) : Tensor κ α :=
  ofControls [n] ((Array.range n).map (level (positions.zip jumps)))

/-- The norms of the columns of a matrix, as a matrix of one row. -/
def columnNorms (A : Tensor κ α) : Tensor κ α :=
  A.alongAxis A.kind (Entry.zero A.kind) 0 1 fun column _ =>
    Tensor.rootSumSq A.kind column (A.shape.headD 0)

/-- The root of the sum of the squared magnitudes, of a single entry too. -/
def euclidean (x : Tensor κ α) : R :=
  Entry.toControl (Tensor.rootSumSq x.kind x.entry x.size)

/-- Two tensors added entry by entry, with no factor. -/
def superpose (x y : Tensor κ α) : Except (Failure R) (Tensor κ α) :=
  Tensor.combine (Tensor.jointKind x y) Entry.add x y

/-! ## §2. The generators. -/

/-- A signal of length `n` with `k` entries at random positions, of random
sign and of magnitude in `[1, 2)`. -/
def sparse (src : Source m R) (n k : Int) : m (Tensor κ α) := do
  if n < k then liftM (.error (.sparsity k n) : Except (Failure R) Unit)
  if n < 0 then liftM (.error .drawSize : Except (Failure R) Unit)
  let support ← src.choice n.toNat k false
  let signs ← src.choice 2 k true
  let magnitudes ← src.uniform Control.one Control.two k
  return scatter n.toNat support (signed signs magnitudes)

/-- A random `m × n` matrix with columns of norm one, a `k`-sparse signal, and
the image of the signal. -/
def compressed (src : Source m R) (rows n k : Int) :
    m (Tensor κ α × Tensor κ α × Tensor κ α) := do
  let normals ← src.normal [rows, n]
  let G : Tensor κ α := ofControls [rows.toNat, n.toNat] normals.toArray
  let A ← liftM (G.div (columnNorms G))
  let x ← sparse src n k
  return (A, x, ← liftM (A.matmul x))

/-- A signal of length `n` that starts at zero and jumps `s` times, by at
least one half. -/
def piecewise (src : Source m R) (n s : Int) : m (Tensor κ α) := do
  let drawn ← src.choice (n - 1).toNat s false
  let signs ← src.choice 2 s true
  let magnitudes ← src.uniform (Control.ofDecimal 5 (-1)) (Control.ofDecimal 15 (-1)) s
  if n < 0 then liftM (.error .drawSize : Except (Failure R) Unit)
  -- Position 0 never jumps, so the draws are one below the positions.
  let positions := (drawn.map (· + 1)).mergeSort (· ≤ ·)
  return staircase n.toNat positions (signed signs magnitudes)

/-- Data with noise of a stated Euclidean norm. -/
def boundedNoise (src : Source m R) (b : Tensor κ α) (norm : R) : m (Tensor κ α) := do
  if Control.lt norm Control.zero then
    liftM (.error (.noiseNorm norm) : Except (Failure R) Unit)
  let normals ← src.normal (b.shape.map Int.ofNat)
  let noise : Tensor κ α := ofControls b.shape normals.toArray
  liftM (superpose b (Tensor.scale (norm / euclidean noise) noise))

end TestProblem

end PrimalDual
