/-
  PrimalDual.Fourier.Line
  ───────────────────────
  **THE DISCRETE FOURIER TRANSFORM OF ONE LINE.**

  Three transforms, each of a line of length `n`:

      realBins       bins `0 … n/2` of a real line
      complexBins    all bins of a complex line, in either direction
      realLine       `n` times the real line with given bins `0 … n/2`

  *Short* transforms are sums of `n` terms, folded: places `j` and `n - j`
  meet the same cosine and opposite sines, so their sum and their difference
  are taken first.  A term whose factor is exactly zero is left out, so an
  undefined entry reaches only the bins in which it takes part.

  *Long* transforms go in stages, one for each factor of `n = p m`.  Forward,
  a real line is dealt out to `p` parts of length `m`: bin `i + q m` is bin
  `q` of the short transform of the bins `i` of the parts, that of part `c`
  turned by `c i / n`.  The other two go the opposite way: the short
  transform of the places `i + q m` comes first, its bin `u` is turned by
  `u i / n`, and the transform of these over `i` gives the places `u + p j`.

  A bin that is its own mirror image — bin 0 and, for even `n`, bin `n/2` —
  is real: its imaginary part is written as zero and never read.
-/
import PrimalDual.Fourier.Coefficient

namespace PrimalDual

namespace Fourier

variable {κ α R : Type} [Control R] [Entry α R κ]

/-! ## §1. Fractions of a turn. -/

/-- The direction of a transform: whether its factors turn clockwise or back. -/
inductive Direction where
  | forward
  | inverse

/-- Cosine and sine of a fraction of a turn as factors; one that vanishes is absent. -/
structure Turn (α : Type) where
  cos : Option α
  sin : Option α

/-- The fractions `0/n … (n-1)/n` of a turn.  The cosine vanishes at one and at three
quarters of a turn, the sine at none and at one half. -/
def turns (k : κ) (n : Nat) : Array (Turn α) :=
  Array.ofFn fun j : Fin n =>
    ⟨if 4 * j.val = n ∨ 4 * j.val = 3 * n then none
      else some (Entry.ofControl k (Control.cosTurn j n : R)),
    if 2 * j.val % n = 0 then none else some (Entry.ofControl k (Control.sinTurn j n : R))⟩

/-- The fraction `j / n` of a turn, for any `j`, from the table of those below 1. -/
def turn (w : Array (Turn α)) (j : Nat) : Turn α := w.getD (j % w.size) ⟨none, none⟩

/-- An entry times a factor.  A factor that vanishes leaves nothing of it, be it infinite
or undefined. -/
def times (k : κ) (factor : Option α) (a : α) : α :=
  match factor with
  | none => Entry.zero k
  | some c => Entry.mul k a c

/-- A coefficient turned by a fraction.  Both of its parts enter both parts of the result,
even where a factor vanishes. -/
def turnBy (k : κ) (d : Direction) (w : Turn α) (a : Coefficient α) : Coefficient α :=
  let cos := w.cos.getD (Entry.zero k)
  let sin := w.sin.getD (Entry.zero k)
  match d with
  | .forward =>
    ⟨Entry.add k (Entry.mul k a.re cos) (Entry.mul k a.im sin),
      Entry.sub k (Entry.mul k a.im cos) (Entry.mul k a.re sin)⟩
  | .inverse =>
    ⟨Entry.sub k (Entry.mul k a.re cos) (Entry.mul k a.im sin),
      Entry.add k (Entry.mul k a.im cos) (Entry.mul k a.re sin)⟩

/-- Bin `i` of line `u` turned by `u i` of the given turns.  Line 0 and bin 0 of every line
stay as they are. -/
def turnBin (k : κ) (d : Direction) (w : Array (Turn α)) (u i : Nat) (a : Coefficient α) :
    Coefficient α :=
  if u = 0 ∨ i = 0 then a else turnBy k d (turn w (u * i)) a

/-- A real number turned forward by a fraction. -/
def turnReal (k : κ) (w : Turn α) (a : α) : Coefficient α :=
  ⟨times k w.cos a, Entry.sub k (Entry.zero k) (times k w.sin a)⟩

/-- The real part of a coefficient turned back by a fraction. -/
def realTurned (k : κ) (w : Turn α) (a : Coefficient α) : α :=
  Entry.sub k (times k w.cos a.re) (times k w.sin a.im)

/-! ## §2. Short transforms. -/

/-- The number of places `1 … pairs n` that have a partner `n - j` behind them. -/
def pairs (n : Nat) : Nat := (n - 1) / 2

/-- What the places without a partner contribute to bin `b`: place 0 and, for
even `n`, place `n/2`. -/
def unpaired (k : κ) (n : Nat) (w : Array (Turn α)) (line : Nat → α) (b : Nat) : α :=
  if n % 2 = 0 then
    Entry.add k (line 0) (times k (turn w (n / 2 * b)).cos (line (n / 2)))
  else line 0

/-- Bin `b` of a real line of length `n`; `w` are the turns of that length. -/
def realBin (k : κ) (n : Nat) (w : Array (Turn α)) (line : Nat → α) (b : Nat) :
    Coefficient α where
  re := Entry.sumFrom k (unpaired k n w line b) (fun i =>
    let j := i + 1
    times k (turn w (j * b)).cos (Entry.add k (line j) (line (n - j)))) (pairs n)
  im := Entry.sumTo k (fun i =>
    let j := i + 1
    times k (turn w (j * b)).sin (Entry.sub k (line (n - j)) (line j))) (pairs n)

/-- The even part of bin `b` of a complex line: the sum with cosines. -/
def evenPart (k : κ) (n : Nat) (w : Array (Turn α)) (line : Nat → Coefficient α)
    (b : Nat) : Coefficient α :=
  let start : Coefficient α :=
    ⟨unpaired k n w (fun j => (line j).re) b, unpaired k n w (fun j => (line j).im) b⟩
  Coefficient.sumFrom k start (fun i =>
    let j := i + 1
    (Coefficient.add k (line j) (line (n - j))).map (times k (turn w (j * b)).cos)) (pairs n)

/-- The odd part of bin `b` of a complex line: the sum with sines. -/
def oddPart (k : κ) (n : Nat) (w : Array (Turn α)) (line : Nat → Coefficient α)
    (b : Nat) : Coefficient α :=
  Coefficient.sumFrom k (Coefficient.zero k) (fun i =>
    let j := i + 1
    (Coefficient.sub k (line j) (line (n - j))).map (times k (turn w (j * b)).sin)) (pairs n)

/-- Bin `b` of a complex line of length `n`. -/
def bin (k : κ) (d : Direction) (n : Nat) (w : Array (Turn α)) (line : Nat → Coefficient α)
    (b : Nat) : Coefficient α :=
  let even := evenPart k n w line b
  let odd := (oddPart k n w line b).quarter k
  match d with
  | .forward => even.sub k odd
  | .inverse => even.add k odd

/-- `n` times entry `j` of the real line of length `n` whose bins `0 … n/2` are given. -/
def realEntry (k : κ) (n : Nat) (w : Array (Turn α)) (line : Nat → Coefficient α)
    (j : Nat) : α :=
  let cosines := Entry.sumFrom k (unpaired k n w (fun b => (line b).re) j) (fun i =>
    let b := i + 1
    times k (turn w (b * j)).cos (Entry.add k (line b).re (line b).re)) (pairs n)
  let sines := Entry.sumTo k (fun i =>
    let b := i + 1
    times k (turn w (b * j)).sin (Entry.add k (line b).im (line b).im)) (pairs n)
  Entry.sub k cosines sines

/-! ## §3. Transforms in stages. -/

/-- A stage: it joins or splits `factor` lines of length `rest`.  The turns are those of
`factor` and of the whole length. -/
structure Stage (α : Type) where
  factor : Nat
  rest : Nat
  short : Array (Turn α)
  long : Array (Turn α)

/-- The length of the lines that a stage joins or splits. -/
def Stage.length (s : Stage α) : Nat := s.factor * s.rest

/-- The stages with the given factors. -/
def stages (k : κ) : List Nat → List (Stage α)
  | [] => []
  | p :: factors =>
    ⟨p, factors.prod, turns k p, turns k (p * factors.prod)⟩ :: stages k factors

/-- Place `i` of a table of coefficients. -/
def place (k : κ) (line : Array (Coefficient α)) (i : Nat) : Coefficient α :=
  line.getD i (Coefficient.zero k)

/-- Bin `b` of the whole line from the bins `0 … rest/2` of its parts.  A bin in the
second half of a part is the mirror image of one in the first half. -/
def joinedBin (k : κ) (s : Stage α) (parts : Array (Array (Coefficient α))) (b : Nat) :
    Coefficient α :=
  let part (c i : Nat) : Coefficient α := place k (parts.getD c #[]) i
  let joined (i q : Nat) : Coefficient α :=
    if i = 0 then realBin k s.factor s.short (fun c => (part c 0).re) q
    else bin k .forward s.factor s.short (fun c =>
      if 2 * i = s.rest then turnReal k (turn s.long (c * i)) (part c i).re
      else turnBin k .forward s.long c i (part c i)) q
  let i := b % s.rest
  let q := b / s.rest
  if 2 * i ≤ s.rest then joined i q
  else (joined (s.rest - i) (s.factor - 1 - q)).conj k

/-- Bins `0 … n/2` of a real line. -/
def realBins (k : κ) : List (Stage α) → (Nat → α) → Array (Coefficient α)
  | [], line => #[.ofReal k (line 0)]
  | s :: later, line =>
    let parts := Array.ofFn fun c : Fin s.factor =>
      realBins k later fun j => line (c + s.factor * j)
    Array.ofFn fun b : Fin (s.length / 2 + 1) => joinedBin k s parts b

/-- Place `i` of part `u` of a complex line. -/
def splitBin (k : κ) (d : Direction) (s : Stage α) (line : Nat → Coefficient α) (u i : Nat) :
    Coefficient α :=
  turnBin k d s.long u i (bin k d s.factor s.short (fun q => line (i + s.rest * q)) u)

/-- All bins of a complex line. -/
def complexBins (k : κ) (d : Direction) :
    List (Stage α) → (Nat → Coefficient α) → Array (Coefficient α)
  | [], line => #[line 0]
  | s :: later, line =>
    let parts := Array.ofFn fun u : Fin s.factor =>
      let part := Array.ofFn fun i : Fin s.rest => splitBin k d s line u i
      complexBins k d later (place k part)
    Array.ofFn fun b : Fin s.length => place k (parts.getD (b % s.factor) #[]) (b / s.factor)

/-- Bin `b` of a real line from its bins `0 … n/2`. -/
def mirrored (k : κ) (n : Nat) (line : Nat → Coefficient α) (b : Nat) : Coefficient α :=
  if 2 * b ≤ n then line b else (line (n - b)).conj k

/-- Bin `i` of part `u` of a real line, from the bins `0 … n/2` of the line. -/
def splitHalf (k : κ) (s : Stage α) (line : Nat → Coefficient α) (u i : Nat) : Coefficient α :=
  if i = 0 then .ofReal k (realEntry k s.factor s.short (fun q => line (s.rest * q)) u)
  else
    let a := bin k .inverse s.factor s.short (fun q => mirrored k s.length line (i + s.rest * q)) u
    if 2 * i = s.rest then .ofReal k (realTurned k (turn s.long (u * i)) a)
    else turnBin k .inverse s.long u i a

/-- `n` times the real line whose bins `0 … n/2` are given. -/
def realLine (k : κ) : List (Stage α) → (Nat → Coefficient α) → Array α
  | [], line => #[(line 0).re]
  | s :: later, line =>
    let parts := Array.ofFn fun u : Fin s.factor =>
      let part := Array.ofFn fun i : Fin (s.rest / 2 + 1) => splitHalf k s line u i
      realLine k later (place k part)
    Array.ofFn fun j : Fin s.length =>
      (parts.getD (j % s.factor) #[]).getD (j / s.factor) (Entry.zero k)

end Fourier

end PrimalDual
