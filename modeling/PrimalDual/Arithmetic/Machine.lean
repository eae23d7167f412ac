/-
  PrimalDual.Arithmetic.Machine
  ─────────────────────────────
  **MACHINE NUMBERS.**

  The arithmetic in which problems are run.  Control numbers are doubles.
  Entries are of five kinds:

      int        64-bit integers, which wrap around
      single     reals of single precision
      double     reals of double precision
      csingle    complex numbers of single precision
      cdouble    complex numbers of double precision

  An operation at a kind reads its operands in that kind and rounds in it, so
  all arithmetic on single-precision tensors is in single precision.
-/
import PrimalDual.Arithmetic.Binary
import PrimalDual.Arithmetic.Circle
import PrimalDual.Arithmetic.Entry

namespace PrimalDual

/-! ## §1. Doubles as control numbers. -/

/-- The double nearest to an integer. -/
def MachineReal.nearest (n : Int) : Float :=
  if n < 0 then -Float.ofScientific n.natAbs false 0 else Float.ofScientific n.natAbs false 0

/-- The double nearest to a fixed-point number. -/
def MachineReal.ofUnits (n : Int) : Float := (MachineReal.nearest n).scaleB (-Circle.places)

instance : Control Float where
  ofInt := MachineReal.nearest
  ofDecimal m e := Float.ofScientific m (e < 0) e.natAbs
  sqrt := Float.sqrt
  ceil x := match Binary.ofFloat x with
    | .finite b => b.ceil
    | _ => 0
  lt a b := a < b
  le a b := a ≤ b
  isNaN := Float.isNaN
  isFinite := Float.isFinite
  invE := Float.exp (-1)
  cosTurn j n := MachineReal.ofUnits (Circle.point j n).1
  sinTurn j n := MachineReal.ofUnits (Circle.point j n).2
  realRadices := Radices.split [4]
  complexRadices := Radices.split [8, 4]

/-- The greatest number of single precision. -/
def MachineReal.singleMax : Float := (Float.ofNat ((1 <<< 24) - 1)).scaleB 104

/-- The least double beyond the 64-bit integers. -/
def MachineReal.wordEnd : Float := 9223372036854775808.0

/-- A double without its fraction; one outside the range is the least integer. -/
def MachineReal.toInt64 (x : Float) : Int64 :=
  if -MachineReal.wordEnd ≤ x && x < MachineReal.wordEnd then x.toInt64 else Int64.minValue

/-- The double that equals a single.  The conversion of the library cannot be unfolded, and that
zero stays zero has to be known where complex numbers are built from reals. -/
def MachineReal.widen (x : Float32) : Float := if x.toBits == 0 then 0 else x.toFloat

/-! ## §2. Kinds. -/

/-- The kinds of machine numbers. -/
inductive MachineKind where
  | int
  | single
  | double
  | csingle
  | cdouble
deriving DecidableEq, Repr

namespace MachineKind

/-- Entries are pairs of a real and an imaginary part. -/
def isComplex : MachineKind → Bool
  | csingle | cdouble => true
  | _ => false

/-- Entries have double precision. -/
def isDouble : MachineKind → Bool
  | double | cdouble => true
  | _ => false

/-- The complex kind of the same precision. -/
def complex : MachineKind → MachineKind
  | double | cdouble => cdouble
  | _ => csingle

/-- The least kind that holds the entries of two kinds. -/
def join (a b : MachineKind) : MachineKind :=
  if a = b then a
  else if a = int then b
  else if b = int then a
  else match a.isComplex || b.isComplex, a.isDouble || b.isDouble with
    | false, false => single
    | false, true => double
    | true, false => csingle
    | true, true => cdouble

/-- A tensor without axes widens one with axes only from integers to reals and
from reals to complex numbers, never in precision. -/
def absorb : MachineKind → MachineKind → MachineKind
  | int, b => b
  | single, csingle | single, cdouble => csingle
  | double, csingle | double, cdouble => cdouble
  | a, _ => a

end MachineKind

instance : Kinds MachineKind where
  same a b := decide (a = b)
  join := MachineKind.join
  absorb := MachineKind.absorb
  floating
    | .int => .single
    | k => k
  real
    | .csingle => .single
    | .cdouble => .double
    | k => k
  wide := .double
  isInteger k := decide (k = .int)
  isComplex := MachineKind.isComplex

/-! ## §3. Complex numbers as pairs. -/

/-- The operations of a floating-point format. -/
class Floating (F : Type) extends Add F, Sub F, Mul F, Div F, Neg F where
  zero : F
  one : F
  sqrt : F → F
  abs : F → F
  lt : F → F → Bool
  le : F → F → Bool
  infinite : F → Bool
  /-- The square of this number is inside the range, with full precision. -/
  squares : F → Bool

/-- A complex number in rectangular form. -/
structure Rect (F : Type) where
  re : F
  im : F

namespace Rect

variable {F : Type} [Floating F]

@[specialize] def add (a b : Rect F) : Rect F := ⟨a.re + b.re, a.im + b.im⟩

@[specialize] def sub (a b : Rect F) : Rect F := ⟨a.re - b.re, a.im - b.im⟩

@[specialize] def mul (a b : Rect F) : Rect F :=
  ⟨a.re * b.re - a.im * b.im, a.re * b.im + a.im * b.re⟩

/-- The quotient, with numerator and denominator divided by the greater part
of the denominator first. -/
@[specialize] def div (a b : Rect F) : Rect F :=
  if Floating.le (Floating.abs b.im) (Floating.abs b.re) then
    if Floating.le (Floating.abs b.re) Floating.zero then
      -- A zero denominator: each part becomes infinite or undefined on its own.
      ⟨a.re / Floating.abs b.re, a.im / Floating.abs b.im⟩
    else
      let ratio := b.im / b.re
      let scale := Floating.one / (b.re + b.im * ratio)
      ⟨(a.re + a.im * ratio) * scale, (a.im - a.re * ratio) * scale⟩
  else
    let ratio := b.re / b.im
    let scale := Floating.one / (b.re * ratio + b.im)
    ⟨(a.re * ratio + a.im) * scale, (a.im * ratio - a.re) * scale⟩

@[specialize] def conj (a : Rect F) : Rect F := ⟨a.re, -a.im⟩

/-- The magnitude.  It is infinite if a part is, even where the other one is
undefined.  Where the squares of the parts would leave the range, the parts are
divided by the greater of them first. -/
@[specialize] def magnitude (a : Rect F) : F :=
  let u := Floating.abs a.re
  let v := Floating.abs a.im
  let (least, most) := if Floating.lt u v then (u, v) else (v, u)
  if Floating.infinite u then u
  else if Floating.infinite v then v
  else if Floating.squares most || Floating.le most Floating.zero then
    Floating.sqrt (a.re * a.re + a.im * a.im)
  else most * Floating.sqrt (Floating.one + (least / most) * (least / most))

/-- The square of the magnitude. -/
@[specialize] def normSq (a : Rect F) : F := magnitude a * magnitude a

end Rect

/-- The range in which squares of doubles lose nothing. -/
def MachineReal.doubleSquares : Float × Float := (1e-140, 1e140)

/-- The range in which squares of singles lose nothing. -/
def MachineReal.singleSquares : Float32 × Float32 := (1e-15, 1e15)

instance : Floating Float where
  zero := 0
  one := 1
  sqrt := Float.sqrt
  abs := Float.abs
  lt a b := a < b
  le a b := a ≤ b
  infinite := Float.isInf
  squares a := MachineReal.doubleSquares.1 < a && a < MachineReal.doubleSquares.2

instance : Floating Float32 where
  zero := 0
  one := 1
  sqrt := Float32.sqrt
  abs := Float32.abs
  lt a b := a < b
  le a b := a ≤ b
  infinite := Float32.isInf
  squares a := MachineReal.singleSquares.1 < a && a < MachineReal.singleSquares.2

/-! ## §4. Entries. -/

/-- A machine number of one of the kinds. -/
inductive Number where
  | int (n : Int64)
  | single (x : Float32)
  | double (x : Float)
  | csingle (z : Rect Float32)
  | cdouble (z : Rect Float)

namespace Number

/-- The real part in double precision. -/
def toDouble : Number → Float
  | int n => n.toFloat
  | single x => MachineReal.widen x
  | double x => x
  | csingle z => MachineReal.widen z.re
  | cdouble z => z.re

/-- The imaginary part in double precision. -/
def imaginary : Number → Float
  | csingle z => MachineReal.widen z.im
  | cdouble z => z.im
  | _ => 0

/-- The real part in single precision. -/
def toSingle : Number → Float32
  | int n => n.toFloat32
  | single x => x
  | double x => x.toFloat32
  | csingle z => z.re
  | cdouble z => z.re.toFloat32

/-- The real part without its fraction. -/
def toInt : Number → Int64
  | int n => n
  | a => MachineReal.toInt64 a.toDouble

/-- The number as a complex one of single precision. -/
def toRectSingle : Number → Rect Float32
  | csingle z => z
  | cdouble z => ⟨z.re.toFloat32, z.im.toFloat32⟩
  | a => ⟨a.toSingle, 0⟩

/-- The number as a complex one of double precision. -/
def toRectDouble : Number → Rect Float
  | csingle z => ⟨MachineReal.widen z.re, MachineReal.widen z.im⟩
  | cdouble z => z
  | a => ⟨a.toDouble, 0⟩

/-- A number read in a kind. -/
def cast : MachineKind → Number → Number
  | .int, a => int a.toInt
  | .single, a => single a.toSingle
  | .double, a => double a.toDouble
  | .csingle, a => csingle a.toRectSingle
  | .cdouble, a => cdouble a.toRectDouble

/-- The number of a kind with the given real and imaginary parts; a real kind
has no imaginary part. -/
def ofParts (k : MachineKind) (re im : Float) : Number := cast k (cdouble ⟨re, im⟩)

/-- A binary operation at a kind, from its meaning on each kind. -/
@[inline] def binary (onInt : Int64 → Int64 → Int64) (onSingle : Float32 → Float32 → Float32)
    (onDouble : Float → Float → Float)
    (onRectSingle : Rect Float32 → Rect Float32 → Rect Float32)
    (onRectDouble : Rect Float → Rect Float → Rect Float) (k : MachineKind) (a b : Number) :
    Number :=
  match k with
  | .int => int (onInt a.toInt b.toInt)
  | .single => single (onSingle a.toSingle b.toSingle)
  | .double => double (onDouble a.toDouble b.toDouble)
  | .csingle => csingle (onRectSingle a.toRectSingle b.toRectSingle)
  | .cdouble => cdouble (onRectDouble a.toRectDouble b.toRectDouble)

/-- A map from a kind to its real kind, from its meaning on each kind. -/
@[inline] def realMap (onInt : Int64 → Int64) (onSingle : Float32 → Float32)
    (onDouble : Float → Float) (onRectSingle : Rect Float32 → Float32)
    (onRectDouble : Rect Float → Float)
    (k : MachineKind) (a : Number) : Number :=
  match k with
  | .int => int (onInt a.toInt)
  | .single => single (onSingle a.toSingle)
  | .double => double (onDouble a.toDouble)
  | .csingle => single (onRectSingle a.toRectSingle)
  | .cdouble => double (onRectDouble a.toRectDouble)

/-- The complex conjugate. -/
def conj : MachineKind → Number → Number
  | .csingle, a => csingle a.toRectSingle.conj
  | .cdouble, a => cdouble a.toRectDouble.conj
  | k, a => cast k a

/-- A bound is infinite or inside the range of a kind. -/
def inRange (k : MachineKind) (bound : Float) : Bool :=
  match k with
  | .single | .csingle => bound.isInf || bound.abs ≤ MachineReal.singleMax
  | _ => true

/-- The greater of a number and a bound; an undefined number stays. -/
def atLeast (k : MachineKind) (bound : Float) (a : Number) : Number :=
  match cast k a with
  | single x => single (if x < bound.toFloat32 then bound.toFloat32 else x)
  | double x => double (if x < bound then bound else x)
  | b => b

/-- The lesser of a number and a bound; an undefined number stays. -/
def atMost (k : MachineKind) (bound : Float) (a : Number) : Number :=
  match cast k a with
  | single x => single (if bound.toFloat32 < x then bound.toFloat32 else x)
  | double x => double (if bound < x then bound else x)
  | b => b

end Number

instance : Entry Number Float MachineKind where
  ofControl k r := Number.cast k (.double r)
  toControl := Number.toDouble
  imaginary := Number.imaginary
  inRange := Number.inRange
  cast := Number.cast
  add k a b := Number.binary (· + ·) (· + ·) (· + ·) Rect.add Rect.add k a b
  sub k a b := Number.binary (· - ·) (· - ·) (· - ·) Rect.sub Rect.sub k a b
  mul k a b := Number.binary (· * ·) (· * ·) (· * ·) Rect.mul Rect.mul k a b
  div k a b := Number.binary (· / ·) (· / ·) (· / ·) Rect.div Rect.div k a b
  conj := Number.conj
  magnitude k a := Number.realMap (fun n => if n < 0 then -n else n) Float32.abs Float.abs
    Rect.magnitude Rect.magnitude k a
  normSq k a := Number.realMap (fun n => n * n) (fun x => x * x) (fun x => x * x)
    Rect.normSq Rect.normSq k a
  sqrt k a := Number.realMap id Float32.sqrt Float.sqrt (fun z => z.re.sqrt) (fun z => z.re.sqrt)
    k a
  atLeast := Number.atLeast
  atMost := Number.atMost

end PrimalDual
