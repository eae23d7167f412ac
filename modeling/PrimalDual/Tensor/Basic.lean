/-
  PrimalDual.Tensor.Basic
  ───────────────────────
  **TENSORS AND THEIR SHAPES.**

  A tensor is a shape — the list of its axis lengths — and one entry for each
  position, in row-major order.  The number of entries is the product of the
  axis lengths; this is part of the type.  A tensor without axes has one
  entry.

  Every operation of the library builds its result with `Tensor.tabulate`,
  entry by entry, from a function on positions; `entry_tabulate` reads it
  back.
-/
import PrimalDual.Arithmetic.Entry

namespace PrimalDual

/-! ## §1. The type. -/

/-- A tensor of entries `α`, held in a kind from `κ`. -/
structure Tensor (κ α : Type) where
  kind : κ
  shape : List Nat
  data : Array α
  size_data : data.size = shape.prod

namespace Tensor

variable {κ α β R : Type}

@[ext] theorem ext {x y : Tensor κ α} (hk : x.kind = y.kind) (hs : x.shape = y.shape)
    (hd : x.data = y.data) : x = y := by
  cases x; cases y; simp_all

/-- The number of entries. -/
def size (x : Tensor κ α) : Nat := x.data.size

/-- The number of axes. -/
def axes (x : Tensor κ α) : Nat := x.shape.length

/-- The tensor has at least one axis. -/
def hasAxes (x : Tensor κ α) : Bool := !x.shape.isEmpty

theorem size_eq (x : Tensor κ α) : x.size = x.shape.prod := x.size_data

/-- The tensor whose entry at row-major position `i` is `f i`. -/
def tabulate (kind : κ) (shape : List Nat) (f : Nat → α) : Tensor κ α where
  kind := kind
  shape := shape
  data := Array.ofFn fun i : Fin shape.prod => f i
  size_data := Array.size_ofFn

@[simp] theorem kind_tabulate (k : κ) (s : List Nat) (f : Nat → α) :
    (tabulate k s f).kind = k := rfl

@[simp] theorem shape_tabulate (k : κ) (s : List Nat) (f : Nat → α) :
    (tabulate k s f).shape = s := rfl

@[simp] theorem size_tabulate (k : κ) (s : List Nat) (f : Nat → α) :
    (tabulate k s f).size = s.prod := (tabulate k s f).size_data

/-- The entry at a row-major position; `d` stands for the positions beyond the last. -/
def entryD (x : Tensor κ α) (d : α) (i : Nat) : α := x.data.getD i d

theorem entryD_tabulate (k : κ) (s : List Nat) (f : Nat → α) (d : α) {i : Nat}
    (h : i < s.prod) : (tabulate k s f).entryD d i = f i := by
  simp [entryD, tabulate, Array.getD, h]

/-- Two tensors of one kind and shape with equal entries are equal. -/
theorem ext_entryD {x y : Tensor κ α} (d : α) (hk : x.kind = y.kind) (hs : x.shape = y.shape)
    (h : ∀ i < x.size, x.entryD d i = y.entryD d i) : x = y := by
  have hsize : x.data.size = y.data.size := by rw [x.size_data, y.size_data, hs]
  refine ext hk hs (Array.ext hsize fun i h₁ h₂ => ?_)
  have := h i h₁
  simpa [entryD, Array.getD, h₁, h₂] using this

/-- The same entries, each read through `f`, in a kind of its own. -/
def map (kind : κ) (f : α → β) (x : Tensor κ α) : Tensor κ β where
  kind := kind
  shape := x.shape
  data := x.data.map f
  size_data := by rw [Array.size_map, x.size_data]

@[simp] theorem kind_map (k : κ) (f : α → β) (x : Tensor κ α) : (x.map k f).kind = k := rfl

@[simp] theorem shape_map (k : κ) (f : α → β) (x : Tensor κ α) :
    (x.map k f).shape = x.shape := rfl

@[simp] theorem size_map (k : κ) (f : α → β) (x : Tensor κ α) : (x.map k f).size = x.size :=
  Array.size_map

/-! ## §2. Reshaping. -/

/-- The same entries in another shape with as many positions. -/
def withShape (x : Tensor κ α) (shape : List Nat) (h : shape.prod = x.size) : Tensor κ α :=
  ⟨x.kind, shape, x.data, h.symm⟩

/-- The entries as a vector. -/
def flatten (x : Tensor κ α) : Tensor κ α := x.withShape [x.size] (by simp)

@[simp] theorem kind_flatten (x : Tensor κ α) : x.flatten.kind = x.kind := rfl

@[simp] theorem shape_flatten (x : Tensor κ α) : x.flatten.shape = [x.size] := rfl

@[simp] theorem data_flatten (x : Tensor κ α) : x.flatten.data = x.data := rfl

@[simp] theorem size_flatten (x : Tensor κ α) : x.flatten.size = x.size := rfl

/-- The axis lengths a requested shape stands for, with `n` entries to place:
one length may be −1 and is then inferred from the others. -/
def inferShape (n : Nat) (requested : List Int) : Option (List Nat) :=
  let known := (requested.filter (· != -1)).map Int.toNat
  if requested.any (· < -1) then none
  else match requested.count (-1) with
    | 0 => if known.prod = n then some known else none
    | 1 =>
      -- Beside an axis of length 0 any length would do, so none is inferred.
      if known.prod ≠ 0 ∧ n % known.prod = 0 then
        some (requested.map fun d => if d = -1 then n / known.prod else d.toNat)
      else none
    | _ => none

/-- The same entries in a requested shape. -/
def reshape (x : Tensor κ α) (requested : List Int) : Except (Failure R) (Tensor κ α) :=
  match inferShape x.size requested with
  | none => .error .shapeMismatch
  | some shape =>
    if h : shape.prod = x.size then .ok (x.withShape shape h) else .error .shapeMismatch

/-! ## §3. Tensors of a single value. -/

section Entries

variable [Control R] [Entry α R κ]

/-- The entry at a row-major position; beyond the last one, zero. -/
def entry (x : Tensor κ α) (i : Nat) : α := x.entryD (Entry.zero x.kind) i

theorem entry_tabulate (k : κ) (s : List Nat) (f : Nat → α) {i : Nat} (h : i < s.prod) :
    (tabulate k s f).entry i = f i := entryD_tabulate k s f _ h

/-- Two tensors of one kind and shape with equal entries are equal. -/
theorem ext_entry {x y : Tensor κ α} (hk : x.kind = y.kind) (hs : x.shape = y.shape)
    (h : ∀ i < x.size, x.entry i = y.entry i) : x = y :=
  ext_entryD (Entry.zero x.kind) hk hs fun i hi => by
    simpa [entry, hk] using h i hi

/-- Zeros of a kind and shape. -/
def zeros (kind : κ) (shape : List Nat) : Tensor κ α :=
  tabulate kind shape fun _ => Entry.zero kind

/-- Zeros of the kind and shape of another tensor. -/
def zerosLike (x : Tensor κ α) : Tensor κ α := zeros x.kind x.shape

@[simp] theorem shape_zerosLike (x : Tensor κ α) : x.zerosLike.shape = x.shape := rfl

/-- The tensor without axes that holds a control number. -/
def point (kind : κ) (r : R) : Tensor κ α := tabulate kind [] fun _ => Entry.ofControl kind r

/-- The tensor held in another kind. -/
def cast (kind : κ) (x : Tensor κ α) : Tensor κ α := x.map kind (Entry.cast kind)

/-- The one entry of a tensor as a control number, if it is real. -/
def item (x : Tensor κ α) : Except (Failure R) R :=
  if x.size = 1 then
    if Control.eq (Entry.imaginary (x.entry 0)) (Control.zero : R) then
      .ok (Entry.toControl (x.entry 0))
    else .error .kindMismatch
  else .error .shapeMismatch

end Entries

end Tensor

end PrimalDual
