/-
  PrimalDual.Proofs.Operator.Nesting
  ──────────────────────────────────
  **NESTED STACKS.**

  The forward direction of a stacked operator lays the values of its blocks
  end to end (`Tensor.laid`), whatever shapes they have.  Three operators can
  be stacked in two ways,

      [[A; B]; C]    and    [A; [B; C]]

  and both of them lay the same three values end to end.  Nothing is computed
  on the way but the kind in which the entries are held, so this is true of
  any three values for which it does not matter which two of the three kinds
  are joined first (`Coherent`).  Machine numbers are of that sort if they are
  reals or complex numbers of whatever precision (`coherent_floats`): each kind
  holds the numbers of the kinds below it, and no number is rounded on its way
  up.

      single  →  double
        ↓          ↓
      csingle →  cdouble

  An integer is rounded where it is read in single precision, so integers nest
  with numbers of their own kind.
-/
import PrimalDual.Arithmetic.Machine
import PrimalDual.Proofs.Operator.Language

namespace PrimalDual

variable {R κ α : Type} [Control R] [Kinds κ] [Entry α R κ]

/-! ## §1. Entries read in one kind after another. -/

/-- The entries are read in kind `k` alike, whether they were read in kind `j` before or not. -/
def Tensor.ReadsThrough (x : Tensor κ α) (j k : κ) : Prop :=
  ∀ i < x.size, Entry.cast k (Entry.cast j (x.entry i)) = Entry.cast k (x.entry i)

/-- The joint kind of three tensors does not depend on which two are joined first, and nor does an
entry of theirs that is read in it. -/
structure Coherent (x y z : Tensor κ α) : Prop where
  join : Kinds.join (Kinds.join x.kind y.kind) z.kind = Kinds.join x.kind (Kinds.join y.kind z.kind)
  first : x.ReadsThrough (Kinds.join x.kind y.kind) (Kinds.join (Kinds.join x.kind y.kind) z.kind)
    ∧ y.ReadsThrough (Kinds.join x.kind y.kind) (Kinds.join (Kinds.join x.kind y.kind) z.kind)
  last : y.ReadsThrough (Kinds.join y.kind z.kind) (Kinds.join x.kind (Kinds.join y.kind z.kind))
    ∧ z.ReadsThrough (Kinds.join y.kind z.kind) (Kinds.join x.kind (Kinds.join y.kind z.kind))

namespace MachineKind

variable (a b c : MachineKind)

theorem join_assoc : (a.join b).join c = a.join (b.join c) := by
  cases a <;> cases b <;> cases c <;> rfl

theorem join_left : a.join (a.join b) = a.join b := by
  cases a <;> cases b <;> rfl

theorem join_right : b.join (a.join b) = a.join b := by
  cases a <;> cases b <;> rfl

end MachineKind

/-- A real or complex number is not rounded on its way up. -/
theorem Number.cast_cast {a j k : MachineKind} {e : Number} (ha : a ≠ .int)
    (he : Number.cast a e = e) (hj : a.join j = j) (hk : j.join k = k) :
    Number.cast k (Number.cast j e) = Number.cast k e := by
  rw [← he]
  cases a with
  | int => exact absurd rfl ha
  | _ =>
    -- Where `j` is not above `a`, or `k` not above `j`, one of the joins is another kind.  On the
    -- ways that are left a number is widened once, and a zero that was added stays zero.
    cases j <;> cases k <;>
      first | exact absurd hj (by decide) | exact absurd hk (by decide) | rfl

namespace Tensor

/-- Real or complex numbers, each of them a number of the kind of the tensor. -/
structure Floats (x : Tensor MachineKind Number) : Prop where
  kind : x.kind ≠ .int
  held : ∀ i < x.size, Number.cast x.kind (x.entry i) = x.entry i

theorem Floats.readsThrough {x : Tensor MachineKind Number} (hx : x.Floats) {j k : MachineKind}
    (hj : x.kind.join j = j) (hk : j.join k = k) : x.ReadsThrough j k :=
  fun i hi => Number.cast_cast hx.kind (hx.held i hi) hj hk

end Tensor

/-- Real and complex machine numbers of any precision. -/
theorem coherent_floats {x y z : Tensor MachineKind Number} (hx : x.Floats) (hy : y.Floats)
    (hz : z.Floats) : Coherent x y z := by
  have hassoc := MachineKind.join_assoc x.kind y.kind z.kind
  constructor
  · exact hassoc
  · have hk := MachineKind.join_left (x.kind.join y.kind) z.kind
    constructor
    · exact hx.readsThrough (MachineKind.join_left _ _) hk
    · exact hy.readsThrough (MachineKind.join_right _ _) hk
  · have hk := MachineKind.join_right x.kind (y.kind.join z.kind)
    constructor
    · exact hy.readsThrough (MachineKind.join_left _ _) hk
    · exact hz.readsThrough (MachineKind.join_right _ _) hk

/-- Machine numbers of one kind. -/
theorem coherent_machine {x y z : Tensor MachineKind Number} (hxy : x.kind = y.kind)
    (hyz : y.kind = z.kind) : Coherent x y z := by
  have hjoin : Kinds.join z.kind z.kind = z.kind := if_pos rfl
  have hcast : ∀ t : Tensor MachineKind Number, t.ReadsThrough z.kind z.kind := by
    intro t i hi
    cases z.kind <;> rfl
  constructor
  · rw [hxy, hyz, hjoin]
  · rw [hxy, hyz, hjoin, hjoin]
    exact ⟨hcast x, hcast y⟩
  · rw [hxy, hyz, hjoin, hjoin]
    exact ⟨hcast y, hcast z⟩

/-! ## §2. Tensors laid end to end. -/

namespace Tensor

/-- The entries of two tensors, one after the other, as a vector. -/
def laid (x y : Tensor κ α) : Tensor κ α :=
  tabulate (Kinds.join x.kind y.kind) [x.size + y.size] fun i =>
    Entry.cast (Kinds.join x.kind y.kind) (if i < x.size then x.entry i else y.entry (i - x.size))

variable {x y z : Tensor κ α} {i : ℕ}

@[simp] theorem shape_laid : (laid x y).shape = [x.size + y.size] := rfl

@[simp] theorem size_laid : (laid x y).size = x.size + y.size := by
  exact size_of_vector shape_laid

theorem entry_laid (hi : i < x.size + y.size) : (laid x y).entry i
    = Entry.cast (Kinds.join x.kind y.kind)
        (if i < x.size then x.entry i else y.entry (i - x.size)) := by
  unfold laid
  rw [entry_tabulate]
  rwa [List.prod_singleton]

/-- **Three tensors are laid end to end in either order.** -/
theorem laid_laid (h : Coherent x y z) :
    laid (laid x y) z = laid x (laid y z) := by
  refine ext_entry h.join ?_ ?_
  · rw [shape_laid, shape_laid, size_laid, size_laid, Nat.add_assoc]
  · intro i hi
    rw [size_laid, size_laid] at hi
    rw [entry_laid (x := laid x y) (by rwa [size_laid]),
      entry_laid (y := laid y z) (by rw [size_laid]; omega), size_laid]
    show Entry.cast (Kinds.join (Kinds.join x.kind y.kind) z.kind) _
      = Entry.cast (Kinds.join x.kind (Kinds.join y.kind z.kind)) _
    -- The position lies in one of the three tensors.
    by_cases hx : i < x.size
    · rw [if_pos (by omega), if_pos hx, entry_laid (by omega), if_pos hx, h.first.1 i hx, h.join]
    · have hlast : i - x.size < y.size + z.size := by omega
      rw [if_neg hx, entry_laid hlast]
      by_cases hy : i < x.size + y.size
      · have hplace : i - x.size < y.size := by omega
        rw [if_pos hy, if_pos hplace, entry_laid hy, if_neg hx, h.first.2 _ hplace,
          h.last.1 _ hplace, h.join]
      · have hplace : i - (x.size + y.size) < z.size := by omega
        rw [if_neg hy, if_neg (by omega), Nat.sub_sub, h.last.2 _ hplace, h.join]

end Tensor

/-! ## §3. Stacked operators. -/

namespace Operator

open Tensor

variable {A B C : Operator (Except (Failure R)) R κ α} {x : Tensor κ α}

/-- Where nothing but its entries counts, a value may be read in a stated shape. -/
theorem bind_inShape (shape : Option (List ℤ)) {β : Type} {f : Tensor κ α → Except (Failure R) β}
    (hf : ∀ u : Tensor κ α, f u.flatten = f u) (x : Tensor κ α) :
    (A.inShape shape).forward x >>= f = A.forward x >>= f := by
  cases shape with
  | none => rfl
  | some shape =>
    show (A.forward x >>= fun u => .ok u.flatten) >>= f = _
    cases A.forward x with
    | error e => rfl
    | ok u => exact hf u

variable {K : Operator (Except (Failure R)) R κ α} {q : Quantity R} {shapeA shapeB : Option (List ℤ)}

/-- **A stacked operator lays the values of its blocks end to end.** -/
theorem forward_stack (hK : stack A B q shapeA shapeB = .ok K) (x : Tensor κ α) :
    K.forward x = A.forward x >>= fun u => B.forward x >>= fun v => .ok (laid u v) := by
  cases stack_ok hK
  -- What the stack appends are flattened values, and to append vectors is to lay them end to end.
  calc (stacked (A.inShape shapeA) (B.inShape shapeB) q).forward x
      = (A.inShape shapeA).forward x >>= fun u =>
          (B.inShape shapeB).forward x >>= fun v => .ok (laid u v) := rfl
    _ = A.forward x >>= fun u => (B.inShape shapeB).forward x >>= fun v => .ok (laid u v) :=
        bind_inShape shapeA (fun _ => rfl) x
    _ = A.forward x >>= fun u => B.forward x >>= fun v => .ok (laid u v) := by
        apply bind_congr
        intro u
        exact bind_inShape shapeB (fun _ => rfl) x

/-- Both ways to stack three operators return the same for `x`, or fail alike. -/
def NestsAt (A B C : Operator (Except (Failure R)) R κ α) (x : Tensor κ α) : Prop :=
  ∀ (p q r : Quantity R) (shapeA shapeB shapeC : Option (List ℤ))
    (AB BC left right : Operator (Except (Failure R)) R κ α),
    stack A B p shapeA shapeB = .ok AB → stack B C q shapeB shapeC = .ok BC →
    stack AB C q none shapeC = .ok left → stack A BC r shapeA none = .ok right →
    left.forward x = right.forward x

/-- **Nested stacks have the same forward direction.** -/
theorem forward_nested (hkinds : ∀ u v w, A.forward x = .ok u → B.forward x = .ok v →
    C.forward x = .ok w → Coherent u v w) : NestsAt A B C x := by
  intro p q r shapeA shapeB shapeC AB BC left right hAB hBC hleft hright
  rw [forward_stack hleft, forward_stack hright, forward_stack hAB, forward_stack hBC]
  -- The first value that is missing is the same one either way.
  cases hA : A.forward x with
  | error e => rfl
  | ok u =>
    cases hB : B.forward x with
    | error e => rfl
    | ok v =>
      cases hC : C.forward x with
      | error e => rfl
      | ok w => exact congrArg Except.ok (laid_laid (hkinds u v w hA hB hC))

/-- In machine arithmetic, where the three values are of one kind or none are integers. -/
theorem nestsAt_machine
    {A B C : Operator (Except (Failure Float)) Float MachineKind Number}
    {x : Tensor MachineKind Number} (hkinds : ∀ u v w, A.forward x = .ok u → B.forward x = .ok v →
      C.forward x = .ok w →
        (u.kind = v.kind ∧ v.kind = w.kind) ∨ (u.Floats ∧ v.Floats ∧ w.Floats)) :
    NestsAt A B C x := by
  apply forward_nested
  intro u v w hu hv hw
  rcases hkinds u v w hu hv hw with ⟨huv, hvw⟩ | ⟨hu, hv, hw⟩
  · exact coherent_machine huv hvw
  · exact coherent_floats hu hv hw

end Operator

end PrimalDual
