/-
  PrimalDual.Proofs.Tensor.Index
  ──────────────────────────────
  **MULTI-INDICES OF A SHAPE.**

  A multi-index has one coordinate for each axis, below the length of that
  axis.  Coordinates are added and subtracted around their axes, modulo the
  length of each:

      i + j          the multi-index `i` moved on by `j`
      i - j          the multi-index `i` moved back by `j`
      position i     where the entry with the multi-index `i` is listed

  In row-major order the first coordinate counts blocks of all the others
  (`position_cons`), so what holds for all multi-indices is shown by
  induction on the shape.
-/
import PrimalDual.Proofs.Tensor.Axis
import PrimalDual.Proofs.Tensor.Stretch
import Mathlib.Algebra.BigOperators.Fin
import Mathlib.Algebra.Group.Fin.Basic

namespace PrimalDual

namespace Tensor

/-! ## §1. Coordinates. -/

/-- The multi-indices of a shape. -/
abbrev Index (s : List ℕ) : Type := (a : Fin s.length) → Fin (s.get a)

namespace Index

variable {s : List ℕ} {m : ℕ}

/-- A multi-index with a coordinate for one more axis in front. -/
def cons (b : Fin m) (i : Index s) : Index (m :: s) :=
  Fin.cons (α := fun a => Fin ((m :: s).get a)) b i

theorem exists_cons (i : Index (m :: s)) : ∃ (b : Fin m) (j : Index s), i = cons b j :=
  ⟨i 0, Fin.tail i, (Fin.cons_self_tail i).symm⟩

/-- Another first coordinate. -/
theorem update_cons_zero (b j : Fin m) (i : Index s) :
    Function.update (cons b i) 0 j = cons j i :=
  Fin.update_cons_zero (α := fun a => Fin ((m :: s).get a)) b i j

/-- Another coordinate behind the first. -/
theorem update_cons_succ (b : Fin m) (i : Index s) (p : Fin s.length) (j : Fin (s.get p)) :
    Function.update (cons b i) p.succ j = cons b (Function.update i p j) :=
  (Fin.cons_update (α := fun a => Fin ((m :: s).get a)) b i p j).symm

/-- Moved on and back again. -/
theorem forth_back (i j : Index s) : i + j - j = i := by
  funext a
  have : NeZero (s.get a) := ⟨(j a).pos.ne'⟩
  exact add_sub_cancel_right (i a) (j a)

theorem back_forth (i j : Index s) : i - j + j = i := by
  funext a
  have : NeZero (s.get a) := ⟨(j a).pos.ne'⟩
  exact sub_add_cancel (i a) (j a)

/-- All multi-indices moved on by `j`. -/
def shift (j : Index s) : Index s ≃ Index s where
  toFun i := i + j
  invFun i := i - j
  left_inv i := forth_back i j
  right_inv i := back_forth i j

/-- A shape without axes has one multi-index. -/
theorem sum_nil {M : Type*} [AddCommMonoid M] (f : Index [] → M) :
    ∑ i, f i = f fun a => a.elim0 := by
  let _ : Unique (Index []) := ⟨⟨fun a => a.elim0⟩, fun _ => funext fun a => a.elim0⟩
  exact Fintype.sum_unique f

/-- A multi-index is its first coordinate and the multi-index of the others. -/
def consEquiv (m : ℕ) (s : List ℕ) : Fin m × Index s ≃ Index (m :: s) :=
  Fin.consEquiv fun a => Fin ((m :: s).get a)

/-- The multi-indices of a shape are listed by their first coordinate. -/
theorem sum_cons {M : Type*} [AddCommMonoid M] (f : Index (m :: s) → M) :
    ∑ i, f i = ∑ b : Fin m, ∑ i : Index s, f (cons b i) := by
  rw [← (consEquiv m s).sum_comp, Fintype.sum_prod_type]
  rfl

/-! ## §2. Positions. -/

/-- The row-major position of a multi-index. -/
def position (i : Index s) : ℕ := ∑ a : Fin s.length, i a * stride s a

theorem position_nil (i : Index []) : position i = 0 := Fin.sum_univ_zero _

theorem position_cons (b : Fin m) (i : Index s) :
    position (cons b i) = b * s.prod + position i := by
  unfold position
  exact Fin.sum_univ_succ _

theorem position_lt (i : Index s) : position i < s.prod := by
  induction s with
  | nil =>
    rw [position_nil]
    exact Nat.one_pos
  | cons m s ih =>
    obtain ⟨b, j, rfl⟩ := exists_cons i
    rw [position_cons, List.prod_cons]
    exact row_lt b.isLt (ih j)

theorem position_injective : Function.Injective (position : Index s → ℕ) := by
  induction s with
  | nil => exact fun i j _ => funext fun a => a.elim0
  | cons m s ih =>
    intro i i' h
    obtain ⟨b, j, rfl⟩ := exists_cons i
    obtain ⟨b', j', rfl⟩ := exists_cons i'
    rw [position_cons, position_cons] at h
    -- Quotient and remainder by the number of the entries in a block.
    have hblock := congrArg (· / s.prod) h
    have hrest := congrArg (· % s.prod) h
    simp only [row_div (position_lt _), row_mod (position_lt _)] at hblock hrest
    rw [Fin.ext hblock, ih hrest]

/-- Every position is that of a multi-index. -/
theorem exists_index {q : ℕ} (h : q < s.prod) : ∃ i : Index s, position i = q := by
  induction s generalizing q with
  | nil =>
    refine ⟨fun a => a.elim0, ?_⟩
    rw [position_nil]
    exact (Nat.lt_one_iff.1 h).symm
  | cons m s ih =>
    have hrest : 0 < s.prod := Nat.pos_of_ne_zero (by rintro h0; simp [h0] at h)
    obtain ⟨j, hj⟩ := ih (Nat.mod_lt q hrest)
    have hblock : q / s.prod < m := Nat.div_lt_of_lt_mul (by rwa [Nat.mul_comm])
    refine ⟨cons ⟨q / s.prod, hblock⟩ j, ?_⟩
    rw [position_cons, hj]
    exact Nat.div_add_mod' q s.prod

/-- A sum over all positions is a sum over all multi-indices. -/
theorem sum_position {M : Type*} [AddCommMonoid M] (f : ℕ → M) :
    ∑ i : Index s, f (position i) = ∑ q ∈ Finset.range s.prod, f q := by
  induction s generalizing f with
  | nil => rw [sum_nil, position_nil, List.prod_nil, Finset.sum_range_one]
  | cons m s ih =>
    rw [sum_cons, List.prod_cons, sum_range_mul, Finset.sum_range]
    apply Finset.sum_congr rfl
    intro b _
    simp only [position_cons]
    exact ih fun q => f (b * s.prod + q)

/-! ## §3. Lines along an axis. -/

/-- The positions on the line of a multi-index: they differ in one coordinate. -/
theorem position_update (i : Index s) (p : Fin s.length) : ∃ x c, c < stride s p
    ∧ ∀ j, position (Function.update i p j) = (x * s.get p + j) * stride s p + c := by
  induction s with
  | nil => exact p.elim0
  | cons m s ih =>
    obtain ⟨b, k, rfl⟩ := exists_cons i
    refine Fin.cases ?_ ?_ p
    · -- The axis counts the blocks.
      refine ⟨0, position k, position_lt k, fun (j : Fin m) => ?_⟩
      calc position (Function.update (cons b k) 0 j)
          = position (cons j k) := congrArg position (update_cons_zero b j k)
        _ = j * s.prod + position k := position_cons j k
        _ = (0 * m + j) * s.prod + position k := by rw [Nat.zero_mul, Nat.zero_add]
    · intro p
      -- The line lies in one block.
      obtain ⟨x, c, hc, h⟩ := ih k p
      have hblock : s.prod = (s.take p).prod * s.get p * stride s p := by
        rw [prod_axis p.isLt, getD_axis p.isLt]
        rfl
      refine ⟨b * (s.take p).prod + x, c, hc, fun (j : Fin (s.get p)) => ?_⟩
      calc position (Function.update (cons b k) p.succ j)
          = position (cons b (Function.update k p j)) := congrArg position (update_cons_succ b k p j)
        _ = b * s.prod + ((x * s.get p + j) * stride s p + c) := by rw [position_cons, h]
        _ = ((b * (s.take p).prod + x) * s.get p + j) * stride s p + c := by
            rw [hblock]
            ring

end Index

/-! ## §4. Blocks of a tensor with more axes in front. -/

theorem sourceReversed_append (s t : List ℕ) (i : ℕ) :
    sourceReversed s (s ++ t) i = i % s.prod := by
  induction s generalizing i with
  | nil => rw [sourceReversed, List.prod_nil, Nat.mod_one]
  | cons a s ih =>
    rw [List.cons_append, sourceReversed, coordinate_eq_mod, ih, List.prod_cons, Nat.mod_mul]

/-- A tensor that is stretched by more axes in front is read anew in every block. -/
theorem source_append (s t : List ℕ) (i : ℕ) : source t (s ++ t) i = i % t.prod := by
  unfold source
  rw [List.reverse_append, sourceReversed_append, List.prod_reverse]

end Tensor

end PrimalDual
