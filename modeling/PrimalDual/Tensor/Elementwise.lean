/-
  PrimalDual.Tensor.Elementwise
  ─────────────────────────────
  **ENTRY-BY-ENTRY ARITHMETIC.**

  Two tensors are combined entry by entry.  Their shapes are aligned at the
  last axis; an axis of length 1 (or a missing one) is stretched to the
  length of its counterpart, and any other difference is refused.  Tensors of
  one shape are combined position by position.

  The kind of the result follows §2; a control number takes part as a real
  number and never changes the precision of the tensor it meets.
-/
import PrimalDual.Tensor.Basic

namespace PrimalDual

namespace Tensor

variable {κ α β γ R : Type}

/-! ## §1. Stretching shapes. -/

/-- The common shape of two shapes, all listed from the last axis. -/
def stretchReversed : List Nat → List Nat → Option (List Nat)
  | [], t => some t
  | s, [] => some s
  | a :: s, b :: t =>
    if a = b then (stretchReversed s t).map (a :: ·)
    else if a = 1 then (stretchReversed s t).map (b :: ·)
    else if b = 1 then (stretchReversed s t).map (a :: ·)
    else none

/-- The shape to which two shapes can both be stretched. -/
def stretch (s t : List Nat) : Option (List Nat) :=
  (stretchReversed s.reverse t.reverse).map List.reverse

/-- The position in a tensor that is read at position `i` of a shape it is
stretched to; both shapes are listed from the last axis. -/
def sourceReversed : (shape target : List Nat) → (i : Nat) → Nat
  | [], _, _ => 0
  | _ :: _, [], _ => 0
  | a :: s, b :: t, i =>
    -- A stretched axis has one coordinate, whatever the target's.
    (if a = 1 then 0 else i % b) + a * sourceReversed s t (i / b)

/-- The position that is read at position `i` of the stretched shape. -/
def source (shape target : List Nat) (i : Nat) : Nat :=
  sourceReversed shape.reverse target.reverse i

/-- Two tensors combined by `f`, entry by entry. -/
def zipWith (kind : κ) (f : α → β → γ) (da : α) (db : β) (x : Tensor κ α) (y : Tensor κ β) :
    Except (Failure R) (Tensor κ γ) :=
  if x.shape = y.shape then
    .ok (tabulate kind x.shape fun i => f (x.entryD da i) (y.entryD db i))
  else match stretch x.shape y.shape with
    | none => .error .shapeMismatch
    | some shape =>
      .ok (tabulate kind shape fun i =>
        f (x.entryD da (source x.shape shape i)) (y.entryD db (source y.shape shape i)))

/-! ## §2. The kind of a combination. -/

/-- The kind in which two tensors are combined. -/
def jointKind [Kinds κ] (x : Tensor κ α) (y : Tensor κ β) : κ :=
  match x.hasAxes, y.hasAxes with
  | true, false => Kinds.absorb x.kind y.kind
  | false, true => Kinds.absorb y.kind x.kind
  | _, _ => Kinds.join x.kind y.kind

/-! ## §3. Arithmetic of tensors. -/

section Arithmetic

variable [Control R] [Kinds κ] [Entry α R κ]

/-- Two tensors combined by an operation on entries, in a kind. -/
def combine (kind : κ) (f : κ → α → α → α) (x y : Tensor κ α) : Except (Failure R) (Tensor κ α) :=
  zipWith kind (f kind) (Entry.zero x.kind) (Entry.zero y.kind) x y

/-- A tensor plus a multiple of another, `x + c y`. -/
def addMultiple (c : R) (x y : Tensor κ α) : Except (Failure R) (Tensor κ α) :=
  combine (jointKind x y) (Entry.addMultiple c) x y

/-- The sum of two tensors.  The second one counts with the factor 1, so a complex
entry of it with one infinite part has no defined value in the other. -/
def add (x y : Tensor κ α) : Except (Failure R) (Tensor κ α) := addMultiple Control.one x y

/-- The difference of two tensors, the sum with the factor −1. -/
def sub (x y : Tensor κ α) : Except (Failure R) (Tensor κ α) :=
  addMultiple (Control.ofInt (-1)) x y

/-- The product of two tensors, entry by entry. -/
def mul (x y : Tensor κ α) : Except (Failure R) (Tensor κ α) :=
  combine (jointKind x y) Entry.mul x y

/-- The quotient of two tensors, entry by entry; integers are divided as reals. -/
def div (x y : Tensor κ α) : Except (Failure R) (Tensor κ α) :=
  combine (Kinds.floating (jointKind x y)) Entry.div x y

/-! ## §4. Arithmetic with control numbers. -/

/-- A tensor combined with a control number. -/
def withControl (f : κ → α → α → α) (x : Tensor κ α) (r : R) : Tensor κ α :=
  let kind := Kinds.floating x.kind
  x.map kind fun a => f kind a (Entry.ofControl kind r)

/-- A multiple of a tensor. -/
def scale (r : R) (x : Tensor κ α) : Tensor κ α := x.withControl Entry.mul r

/-- A tensor divided by a number. -/
def divBy (x : Tensor κ α) (r : R) : Tensor κ α := x.withControl Entry.div r

/-- A number added to each entry. -/
def shift (x : Tensor κ α) (r : R) : Tensor κ α := x.withControl Entry.add r

/-- Each entry subtracted from a number. -/
def subFrom (r : R) (x : Tensor κ α) : Tensor κ α :=
  x.withControl (fun k a b => Entry.sub k b a) r

/-- The reciprocal of each entry. -/
def reciprocal (x : Tensor κ α) : Tensor κ α :=
  x.withControl (fun k a b => Entry.div k b a) Control.one

/-- A number divided by each entry: the multiple of the reciprocals. -/
def divInto (r : R) (x : Tensor κ α) : Tensor κ α := x.reciprocal.scale r

/-! ## §5. Maps of single entries. -/

/-- The magnitude of each entry. -/
def magnitudes (x : Tensor κ α) : Tensor κ α :=
  x.map (Kinds.real x.kind) (Entry.magnitude x.kind)

/-- The complex conjugate of each entry. -/
def conj (x : Tensor κ α) : Tensor κ α := x.map x.kind (Entry.conj x.kind)

/-- A map of single entries against a bound.  Complex numbers are not ordered. -/
def bounded (f : κ → R → α → α) (bound : R) (x : Tensor κ α) : Except (Failure R) (Tensor κ α) :=
  let kind := Kinds.floating x.kind
  if Kinds.isComplex x.kind then .error .unordered else .ok (x.map kind (f kind bound))

/-- Each entry raised to a lower bound. -/
def atLeast (bound : R) (x : Tensor κ α) : Except (Failure R) (Tensor κ α) :=
  bounded Entry.atLeast bound x

/-- Each entry lowered to an upper bound. -/
def atMost (bound : R) (x : Tensor κ α) : Except (Failure R) (Tensor κ α) :=
  bounded Entry.atMost bound x

/-- Each entry raised to a lower and then lowered to an upper bound.  An undefined
bound makes every entry undefined, before the range of either bound matters. -/
def between (lo hi : R) (x : Tensor κ α) : Except (Failure R) (Tensor κ α) :=
  let kind := Kinds.floating x.kind
  if Kinds.isComplex x.kind then .error .unordered
  else if Control.isNaN lo then .ok (x.map kind fun _ => Entry.ofControl kind lo)
  else if Control.isNaN hi then .ok (x.map kind fun _ => Entry.ofControl kind hi)
  else if !(Entry.inRange (α := α) kind lo && Entry.inRange (α := α) kind hi) then
    .error .boundRange
  else .ok (x.map kind fun a => Entry.atMost kind hi (Entry.atLeast kind lo a))

end Arithmetic

section Shapes

variable [Kinds κ] [Entry α R κ]

@[simp] theorem shape_withControl (f : κ → α → α → α) (x : Tensor κ α) (r : R) :
    (x.withControl f r).shape = x.shape := rfl

@[simp] theorem shape_scale (r : R) (x : Tensor κ α) : (scale r x).shape = x.shape := rfl

@[simp] theorem shape_divBy (x : Tensor κ α) (r : R) : (x.divBy r).shape = x.shape := rfl

end Shapes

end Tensor

end PrimalDual
