/-
  PrimalDual.Proofs.Operator.Difference
  ─────────────────────────────────────
  **BOUND AND KERNEL OF A DIFFERENCE.**

  Both directions of a difference subtract a tensor from itself, moved by one
  place around the circles along the axis: back in the forward direction, on
  in the adjoint (`MovedLess`).  What is shown of one move holds for the other.

    * `MovedLess.norm_le` — moving keeps the norm, so the difference of two
        tensors of equal norm is at most twice as large.
    * `MovedLess.balanced` — on every line the entries are added once and
        subtracted once.
    * `MovedLess.eq_zero_iff` — a tensor without difference agrees with its
        neighbour, and therefore, around the circle, along the whole line.

  Lines of one or of two entries need no cases of their own: their neighbours
  coincide, and the moves are still inverse to each other (`turn_turn`).
-/
import PrimalDual.Proofs.Operator.AlongAxis
import PrimalDual.Proofs.Tensor.Index

namespace PrimalDual

open Tensor

variable {𝕜 : Type} [RCLike 𝕜]

namespace Tensor

/-! ## §1. Multi-indices, moved around one axis. -/

/-- The coordinates of a circle, each sent to the one that is `t` places before it. -/
def around (n : ℕ) (t : ℤ) : Fin n ≃ Fin n where
  toFun b := ⟨(((b : ℕ) - t) % n).toNat, shift_lt b.isLt t⟩
  invFun b := ⟨(((b : ℕ) - -t) % n).toNat, shift_lt b.isLt (-t)⟩
  left_inv b := by
    refine Fin.ext ?_
    show ((((((b : ℕ) : ℤ) - t) % n).toNat - -t) % n).toNat = b
    rw [shift_shift b.isLt t]
    rfl
  right_inv b := by
    have h := shift_shift b.isLt (-t)
    rw [neg_neg] at h
    refine Fin.ext ?_
    show ((((((b : ℕ) : ℤ) - -t) % n).toNat - t) % n).toNat = b
    rw [h]
    rfl

namespace Index

variable {s : List ℕ}

/-- The multi-index that is `t` places before `i` along an axis, around the circle. -/
def turn (p : Fin s.length) (t : ℤ) (i : Index s) : Index s :=
  Function.update i p (around (s.get p) t (i p))

theorem turn_turn (p : Fin s.length) (t : ℤ) (i : Index s) : turn p (-t) (turn p t i) = i := by
  unfold turn
  rw [Function.update_self, Function.update_idem]
  exact (congrArg (Function.update i p) ((around _ t).symm_apply_apply (i p))).trans
    (Function.update_eq_self p i)

/-- A turned line is the same line. -/
theorem turn_update (p : Fin s.length) (t : ℤ) (i : Index s) (j : Fin (s.get p)) :
    turn p t (Function.update i p j) = Function.update i p (around (s.get p) t j) := by
  unfold turn
  rw [Function.update_self, Function.update_idem]

/-- Every multi-index, turned. -/
def turning (p : Fin s.length) (t : ℤ) : Index s ≃ Index s where
  toFun := turn p t
  invFun := turn p (-t)
  left_inv := turn_turn p t
  right_inv i := by
    have h := turn_turn p (-t) i
    rwa [neg_neg] at h

/-- The place from which a rotation takes an entry. -/
theorem moved_position (p : Fin s.length) (t : ℤ) (i : Index s) :
    moved (s.getD p 1) (stride s p) t (position i) = position (turn p t i) := by
  obtain ⟨x, c, hc, hline⟩ := position_update i p
  have hi : position i = (x * s.get p + i p) * stride s p + c := by
    rw [← hline, Function.update_eq_self]
  have hget : s.getD p 1 = s.get p := getD_axis p.isLt
  unfold moved turn
  rw [hget, hline, hi, position_coordinate (i p).isLt hc, across_position (i p).isLt hc]
  rfl

/-- What agrees with its neighbour on one side agrees with that on the other. -/
theorem forall_turn_neg {β : Type*} {f : Index s → β} {p : Fin s.length} {t : ℤ}
    (h : ∀ i, f (turn p t i) = f i) (i : Index s) : f (turn p (-t) i) = f i := by
  have hback := turn_turn p (-t) i
  rw [neg_neg] at hback
  rw [← h, hback]

/-- **Around the circle.**  What agrees with the next entry of its line is constant on it. -/
theorem constant_of_turn {β : Type*} {f : Index s → β} {p : Fin s.length}
    (h : ∀ i, f (turn p (-1) i) = f i) (i : Index s) (j : Fin (s.get p)) :
    f (Function.update i p j) = f i := by
  -- Every coordinate is reached from the first one.
  have hfirst : ∀ b (hb : b < s.get p),
      f (Function.update i p ⟨b, hb⟩) = f (Function.update i p ⟨0, by omega⟩) := by
    intro b hb
    induction b with
    | zero => rfl
    | succ b ih =>
      have hnext : around (s.get p) (-1) ⟨b, by omega⟩ = ⟨b + 1, hb⟩ := by
        refine Fin.ext ?_
        show (((b : ℤ) - -1) % (s.get p : ℕ)).toNat = b + 1
        rw [Int.emod_eq_of_lt (by omega) (by omega)]
        omega
      rw [← ih (by omega), ← hnext, ← turn_update]
      exact h _
  calc f (Function.update i p j) = f (Function.update i p (i p)) := by
        rw [hfirst j j.isLt, hfirst (i p) (i p).isLt]
    _ = f i := by rw [Function.update_eq_self]

end Index

/-! ## §2. A tensor, moved, less itself. -/

section MovedLess

variable {s : List ℕ}

/-- The entries do not depend on the coordinate along an axis. -/
def ConstantAlong (p : Fin s.length) (x : Tensor Unit 𝕜) : Prop :=
  ∀ (i : Index s) (j : Fin (s.get p)),
    x.entry (Index.position (Function.update i p j)) = x.entry (Index.position i)

/-- The entries on each line along an axis sum to zero. -/
def Balanced (p : Fin s.length) (x : Tensor Unit 𝕜) : Prop :=
  ∀ i : Index s, ∑ j, x.entry (Index.position (Function.update i p j)) = 0

/-- `u` is `x`, moved by `t` places along an axis, less `x`. -/
structure MovedLess (p : Fin s.length) (t : ℤ) (x u : Tensor Unit 𝕜) : Prop where
  shape_eq : u.shape = s
  entries : ∀ i : Index s, u.entry (Index.position i)
    = x.entry (Index.position (Index.turn p t i)) - x.entry (Index.position i)

variable {p : Fin s.length} {t : ℤ} {x u v w : Tensor Unit 𝕜}

theorem norm_vec_sq_index (x : Tensor Unit 𝕜) :
    ‖vec s x‖ ^ 2 = ∑ i : Index s, ‖x.entry (Index.position i)‖ ^ 2 := by
  rw [norm_vec_sq, Index.sum_position fun q => ‖x.entry q‖ ^ 2]

/-- A tensor is known by its entries at the multi-indices. -/
theorem ext_index {x y : Tensor Unit 𝕜} (hx : x.shape = s) (hy : y.shape = s)
    (h : ∀ i : Index s, x.entry (Index.position i) = y.entry (Index.position i)) : x = y := by
  refine ext_entry rfl (hx.trans hy.symm) ?_
  intro q hq
  rw [size_eq, hx] at hq
  obtain ⟨i, rfl⟩ := Index.exists_index hq
  exact h i

/-- A rotated tensor, less the tensor. -/
theorem rotate_sub {axis : ℤ} (hx : x.shape = s) (haxis : axisOf s.length axis = some p.val)
    (t : ℤ) : ∃ u, (x.rotate t axis >>= fun w => w.sub x : Except (Failure ℝ) _) = .ok u
      ∧ MovedLess p t x u := by
  have hxaxis : axisOf x.axes axis = some p.val := by
    unfold axes
    rwa [hx]
  obtain ⟨w, hw, hwshape, hwentry⟩ := rotate_of_axis hxaxis t
  obtain ⟨u, hu, hushape, huentry⟩ := sub_of_shape hwshape
  rw [hx] at hwshape
  have hwsize : w.size = s.prod := by rw [size_eq, hwshape]
  have hxsize : x.size = s.prod := by rw [size_eq, hx]
  refine ⟨u, bind_eq_ok.2 ⟨w, hw, hu⟩, hushape.trans hwshape, ?_⟩
  intro i
  have hlt := Index.position_lt i
  rw [huentry _ (hwsize.symm ▸ hlt), hwentry _ (hxsize.symm ▸ hlt), hx, Index.moved_position]

namespace MovedLess

/-- **A move keeps the norm**, so the difference at most doubles it. -/
theorem norm_le (h : MovedLess p t x u) : ‖vec s u‖ ≤ 2 * ‖vec s x‖ := by
  have hmoved : ∑ i : Index s, ‖x.entry (Index.position (Index.turn p t i))‖ ^ 2
      = ‖vec s x‖ ^ 2 := by
    rw [norm_vec_sq_index]
    exact (Index.turning p t).sum_comp fun i => ‖x.entry (Index.position i)‖ ^ 2
  -- Of two entries the square of the difference is at most twice the sum of the squares.
  have hterm : ∀ i : Index s, ‖u.entry (Index.position i)‖ ^ 2
      ≤ 2 * (‖x.entry (Index.position (Index.turn p t i))‖ ^ 2
        + ‖x.entry (Index.position i)‖ ^ 2) := by
    intro i
    rw [h.entries i]
    exact (pow_le_pow_left₀ (norm_nonneg _) (norm_sub_le _ _) 2).trans add_sq_le
  have hsq : ‖vec s u‖ ^ 2 ≤ (2 * ‖vec s x‖) ^ 2 :=
    calc ‖vec s u‖ ^ 2 = ∑ i : Index s, ‖u.entry (Index.position i)‖ ^ 2 := norm_vec_sq_index u
      _ ≤ ∑ i : Index s, 2 * (‖x.entry (Index.position (Index.turn p t i))‖ ^ 2
          + ‖x.entry (Index.position i)‖ ^ 2) := Finset.sum_le_sum fun i _ => hterm i
      _ = 2 * (‖vec s x‖ ^ 2 + ‖vec s x‖ ^ 2) := by
          rw [← Finset.mul_sum, Finset.sum_add_distrib, hmoved, ← norm_vec_sq_index]
      _ = (2 * ‖vec s x‖) ^ 2 := by ring
  exact le_of_sq_le_sq hsq (by positivity)

/-- On each line the same entries are added and subtracted. -/
theorem balanced (h : MovedLess p t x u) : Balanced p u := by
  intro i
  have hline : ∑ j, x.entry (Index.position (Index.turn p t (Function.update i p j)))
      = ∑ j, x.entry (Index.position (Function.update i p j)) := by
    simp only [Index.turn_update]
    exact (around (s.get p) t).sum_comp fun j =>
      x.entry (Index.position (Function.update i p j))
  simp only [h.entries]
  rw [Finset.sum_sub_distrib, hline, sub_self]

/-- The difference is zero where the tensor agrees with the moved one. -/
theorem eq_zero_iff_turn (h : MovedLess p t x u) (hx : x.shape = s) : u = x.zerosLike
    ↔ ∀ i, x.entry (Index.position (Index.turn p t i)) = x.entry (Index.position i) := by
  have hzeros : ∀ i : Index s, x.zerosLike.entry (Index.position i) = 0 := by
    intro i
    unfold zerosLike
    rw [hx]
    exact (entry_tabulate _ _ _ (Index.position_lt i)).trans (Entry.zero_exact _)
  constructor
  · intro hu i
    rw [← sub_eq_zero, ← h.entries, hu, hzeros]
  · intro hagree
    apply ext_index h.shape_eq ((shape_zerosLike x).trans hx)
    intro i
    rw [h.entries, hagree, sub_self, hzeros]

/-- **The kernel is made of the tensors that are constant along the axis.** -/
theorem eq_zero_iff (h : MovedLess p t x u) (hx : x.shape = s) (ht : t = -1 ∨ t = 1) :
    u = x.zerosLike ↔ ConstantAlong p x := by
  rw [h.eq_zero_iff_turn hx]
  constructor
  · intro hagree
    refine Index.constant_of_turn (f := fun i => x.entry (Index.position i)) ?_
    obtain rfl | rfl := ht
    · exact hagree
    · exact Index.forall_turn_neg (f := fun i => x.entry (Index.position i)) hagree
  · intro hconstant i
    exact hconstant i _

/-- Moving back what was moved on and moving on what was moved back give the same. -/
theorem comm (hu : MovedLess p t x u) (hv : MovedLess p (-t) x v)
    (hw : MovedLess p (-t) u w) {z : Tensor Unit 𝕜} (hz : MovedLess p t v z) : w = z := by
  apply ext_index hw.shape_eq hz.shape_eq
  intro i
  have hback := Index.turn_turn p (-t) i
  rw [neg_neg] at hback
  rw [hw.entries, hz.entries, hu.entries, hu.entries, hv.entries, hv.entries, hback,
    Index.turn_turn]
  ring

end MovedLess

end MovedLess

end Tensor

/-! ## §3. The operator. -/

namespace Operator

variable {s : List ℕ} {p : Fin s.length} {axis : ℤ} {x : Tensor Unit 𝕜}

/-- The forward direction takes the next entry, less the entry. -/
theorem difference_forward (haxis : axisOf s.length axis = some p.val) (hx : x.shape = s) :
    ∃ u, (difference axis : Operator (Except (Failure ℝ)) ℝ Unit 𝕜).forward x = .ok u
      ∧ MovedLess p (-1) x u :=
  rotate_sub hx haxis (-1)

/-- The adjoint takes the entry before, less the entry. -/
theorem difference_adjoint (haxis : axisOf s.length axis = some p.val) (hx : x.shape = s) :
    ∃ v, (difference axis : Operator (Except (Failure ℝ)) ℝ Unit 𝕜).adjoint x = .ok v
      ∧ MovedLess p 1 x v :=
  rotate_sub hx haxis 1

/-- The axes that integers name, counted from either end. -/
theorem exists_axis (s : List ℕ) (hlow : -(s.length : ℤ) ≤ axis) (hhigh : axis < s.length) :
    ∃ p : Fin s.length, ((p : ℤ) = axis ∨ (p : ℤ) = axis + s.length)
      ∧ axisOf s.length axis = some p.val := by
  unfold axisOf
  by_cases hfront : 0 ≤ axis
  · refine ⟨⟨axis.toNat, by omega⟩, Or.inl (Int.toNat_of_nonneg hfront), ?_⟩
    rw [if_pos ⟨hfront, hhigh⟩]
  · refine ⟨⟨(s.length + axis).toNat, by omega⟩, Or.inr ?_, ?_⟩
    · show ((s.length + axis).toNat : ℤ) = axis + s.length
      omega
    · rw [if_neg (fun h => hfront h.1), if_pos ⟨hlow, by omega⟩]

/-- **A difference is bounded by 2 and annihilates exactly the constants.**  For a tensor of
any shape and an axis counted from either end, both directions return to the shape, at most
double the norm, are zero exactly on the tensors that are constant along the axis, sum to
zero along it, and commute. -/
theorem difference_bound_kernel (x : Tensor Unit 𝕜) (axis : ℤ) (hlow : -(x.axes : ℤ) ≤ axis)
    (hhigh : axis < x.axes) :
    ∃ (p : Fin x.shape.length) (u v w : Tensor Unit 𝕜),
      ((p : ℤ) = axis ∨ (p : ℤ) = axis + x.axes)
      ∧ (difference axis : Operator (Except (Failure ℝ)) ℝ Unit 𝕜).forward x = .ok u
      ∧ (difference axis : Operator (Except (Failure ℝ)) ℝ Unit 𝕜).adjoint x = .ok v
      ∧ u.shape = x.shape ∧ v.shape = x.shape
      ∧ ‖vec x.shape u‖ ≤ 2 * ‖vec x.shape x‖ ∧ ‖vec x.shape v‖ ≤ 2 * ‖vec x.shape x‖
      ∧ (u = x.zerosLike ↔ ConstantAlong p x) ∧ (v = x.zerosLike ↔ ConstantAlong p x)
      ∧ Balanced p u ∧ Balanced p v
      ∧ (difference axis : Operator (Except (Failure ℝ)) ℝ Unit 𝕜).adjoint u = .ok w
      ∧ (difference axis : Operator (Except (Failure ℝ)) ℝ Unit 𝕜).forward v = .ok w := by
  obtain ⟨p, hp, haxis⟩ := exists_axis x.shape hlow hhigh
  obtain ⟨u, hu, hforward⟩ := difference_forward (x := x) haxis rfl
  obtain ⟨v, hv, hadjoint⟩ := difference_adjoint (x := x) haxis rfl
  obtain ⟨w, hw, hback⟩ := difference_adjoint haxis hforward.shape_eq
  obtain ⟨z, hz, hforth⟩ := difference_forward haxis hadjoint.shape_eq
  have hsame : w = z := hforward.comm hadjoint hback hforth
  refine ⟨p, u, v, w, hp, hu, hv, hforward.shape_eq, hadjoint.shape_eq, hforward.norm_le,
    hadjoint.norm_le, hforward.eq_zero_iff rfl (Or.inl rfl), hadjoint.eq_zero_iff rfl (Or.inr rfl),
    hforward.balanced, hadjoint.balanced, hw, ?_⟩
  rw [hsame]
  exact hz

/-- The imaginary numbers from 0 on, in a shape. -/
noncomputable def imaginary (s : List ℕ) : Tensor Unit ℂ := tabulate () s fun i => i * Complex.I

/-- Along the last of three axes, counted from behind. -/
theorem difference_bound_kernel_imaginary :
    -((imaginary [2, 1, 3]).axes : ℤ) ≤ -1 ∧ (-1 : ℤ) < (imaginary [2, 1, 3]).axes
      ∧ ∃ (p : Fin (imaginary [2, 1, 3]).shape.length) (u : Tensor Unit ℂ), p.val = 2
        ∧ (difference (-1) : Operator (Except (Failure ℝ)) ℝ Unit ℂ).forward (imaginary [2, 1, 3])
          = .ok u
        ∧ ‖vec [2, 1, 3] u‖ ≤ 2 * ‖vec [2, 1, 3] (imaginary [2, 1, 3])‖ ∧ Balanced p u := by
  have hlow : -((imaginary [2, 1, 3]).axes : ℤ) ≤ -1 := by decide
  have hhigh : (-1 : ℤ) < (imaginary [2, 1, 3]).axes := by decide
  obtain ⟨p, u, v, w, hp, hu, -, -, -, hnorm, -, -, -, hbalanced, -, -, -⟩ :=
    difference_bound_kernel (imaginary [2, 1, 3]) (-1) hlow hhigh
  have hthree : ((imaginary [2, 1, 3]).axes : ℤ) = 3 := rfl
  exact ⟨hlow, hhigh, p, u, by omega, hu, hnorm, hbalanced⟩

end Operator

end PrimalDual
