/-
  PrimalDual.Proofs.Operator.AlongAxis
  ────────────────────────────────────
  **MATRICES AND DIFFERENCES.**

  Two operators that work on the lines of a tensor along one axis.

  A matrix multiplies every line along the last axis but one (the only axis
  of a vector), whatever stands before and behind it; its adjoint is the
  conjugate transpose on the same lines.  A difference compares a line with
  itself, moved around the circle; the adjoint of a rotation is the rotation
  back (`dot_rotate`).
-/
import PrimalDual.Proofs.Operator.Adjoint
import PrimalDual.Proofs.Tensor.Axis

namespace PrimalDual

open Tensor

variable {𝕜 : Type} [RCLike 𝕜]

/-! ## §1. Products with a matrix. -/

namespace Tensor

/-- A right factor is a vector, or its last two axes are rows and columns. -/
theorem right_eq_some {s batch : List ℕ} {n p : ℕ} :
    Matrices.right? s = some ⟨batch, n, p⟩
      ↔ s = [n] ∧ batch = [] ∧ p = 1 ∨ s = batch ++ [n, p] := by
  constructor
  · intro h
    obtain ⟨t, rfl⟩ : ∃ t : List ℕ, s = t.reverse := ⟨s.reverse, (List.reverse_reverse s).symm⟩
    unfold Matrices.right? at h
    rw [List.reverse_reverse] at h
    match t with
    | [] => cases h
    | [n] =>
      cases h
      exact Or.inl ⟨rfl, rfl, rfl⟩
    | p :: n :: t =>
      cases h
      exact Or.inr (by simp)
  · rintro (⟨rfl, rfl, rfl⟩ | rfl)
    · rfl
    · simp [Matrices.right?]

/-- A right factor of the shape `s` is a batch of matrices of `n` rows and `p` columns. -/
def RowsOf (s : List ℕ) (batch : List ℕ) (n p : ℕ) : Prop :=
  Matrices.right? s = some ⟨batch, n, p⟩

namespace RowsOf

variable {s batch : List ℕ} {n m p : ℕ}

theorem prod (h : RowsOf s batch n p) : s.prod = batch.prod * n * p := by
  obtain ⟨rfl, rfl, rfl⟩ | rfl := right_eq_some.1 h
  · simp
  · simp [Nat.mul_assoc]

/-- The shape of a product with a matrix of `m` rows. -/
theorem product (h : RowsOf s batch n p) (m : ℕ) :
    RowsOf (productShape batch m p 2 s.length) batch m p
      ∧ (productShape batch m p 2 s.length).length = s.length
      ∧ productShape batch n p 2 s.length = s := by
  obtain ⟨rfl, rfl, rfl⟩ | rfl := right_eq_some.1 h
  · exact ⟨rfl, rfl, rfl⟩
  · have hlength : (batch ++ [n, p]).length ≠ 1 := by simp
    have hshape : ∀ k, productShape batch k p 2 (batch ++ [n, p]).length = batch ++ [k, p] := by
      intro k
      unfold productShape
      rw [if_neg (by decide), if_neg hlength, List.append_assoc]
      rfl
    rw [hshape, hshape]
    exact ⟨right_eq_some.2 (Or.inr rfl), by simp, rfl⟩

end RowsOf

variable {M x u : Tensor Unit 𝕜} {batch : List ℕ} {m n p : ℕ}

/-- The product of an `m × n` matrix with the lines of length `n` of a tensor. -/
theorem multiply_of_rows (hM : M.shape = [m, n]) (hx : RowsOf x.shape batch n p) (o : Bool) :
    ∃ u, (M.multiply o x : Except (Failure ℝ) _) = .ok u
      ∧ u.shape = productShape batch m p 2 x.shape.length
      ∧ ∀ i < batch.prod * m * p, u.entry i
        = ∑ j ∈ Finset.range n, M.entry (i / p % m * n + j) * x.entry (across m n p i j) := by
  have hMaxes : M.axes = 2 := by
    unfold axes
    rw [hM]
    rfl
  have hstretch : stretch [] batch = some batch := stretch_of_stretches (.nil _)
  refine ⟨products () batch ⟨[], m, n⟩ ⟨batch, n, p⟩ M x, ?_, ?_, ?_⟩
  · unfold multiply
    rw [hM, show Matrices.left? [m, n] = some ⟨[], m, n⟩ from rfl, hx]
    dsimp only
    rw [if_pos rfl, hstretch]
    rfl
  · show productShape batch m p M.axes x.axes = _
    rw [hMaxes]
    rfl
  · intro i hi
    have hprod : (productShape batch m p M.axes x.axes).prod = batch.prod * m * p := by
      rw [hMaxes]
      exact (hx.product m).1.prod
    have hbatch : i / (m * p) < batch.prod := by
      obtain ⟨a, b, c, ha, hb, hc, rfl⟩ := exists_position hi
      rwa [position_div hb hc]
    -- A single matrix is read again for every member of the batch.
    have hempty : source [] batch (i / (m * p)) = 0 := by
      unfold source
      rw [List.reverse_nil, sourceReversed]
    unfold products
    rw [entry_tabulate _ _ _ (hprod ▸ hi), Entry.sumTo_exact]
    apply Finset.sum_congr rfl
    intro j _
    show M.entry ((source [] batch (i / (m * p)) * m + i / p % m) * n + j)
      * x.entry ((source batch batch (i / (m * p)) * n + j) * p + i % p) = _
    rw [hempty, source_self hbatch, Nat.zero_mul, Nat.zero_add]
    rfl

/-- What a matrix multiplies has lines of its number of columns. -/
theorem rows_of_multiply (hM : M.shape = [m, n]) {o : Bool}
    (h : (M.multiply o x : Except (Failure ℝ) _) = .ok u) :
    ∃ batch p, RowsOf x.shape batch n p := by
  unfold multiply at h
  rw [hM, show Matrices.left? [m, n] = some ⟨[], m, n⟩ from rfl] at h
  cases hr : Matrices.right? x.shape with
  | none =>
    rw [hr] at h
    cases h
  | some r =>
    rw [hr] at h
    obtain ⟨batch, rows, p⟩ := r
    by_cases hn : n = rows
    · subst hn
      exact ⟨batch, p, hr⟩
    · simp only [hn, if_false] at h
      cases h

theorem adjointMatrix_ok (hM : M.shape = [m, n]) :
    ∃ N : Tensor Unit 𝕜, (M.adjointMatrix : Except (Failure ℝ) _) = .ok N ∧ N.shape = [n, m]
      ∧ ∀ j < n, ∀ r < m, N.entry (j * m + r) = star (M.entry (r * n + j)) := by
  refine ⟨tabulate () ([] ++ [n, m]) fun i =>
    star (M.entry (i / (n * m) * (n * m) + i % m * n + i / m % n)), ?_, rfl, ?_⟩
  · unfold adjointMatrix
    rw [hM]
    rfl
  · intro j hj r hr
    have hlt : j * m + r < n * m := row_lt hj hr
    have hprod : ([] ++ [n, m]).prod = n * m := by simp
    rw [entry_tabulate _ _ _ (hprod ▸ hlt), Nat.div_eq_of_lt hlt, row_div hr, row_mod hr,
      Nat.mod_eq_of_lt hj, Nat.zero_mul, Nat.zero_add]

end Tensor

/-- **The directions of a matrix are mutually adjoint**, on vectors, matrices and batches. -/
theorem Operator.adjoint_matrix {M : Tensor Unit 𝕜} (hM : M.axes = 2) (D : List ℕ) :
    MutuallyAdjoint D (matrix M : Operator (Except (Failure ℝ)) ℝ Unit 𝕜).forward
      (matrix M).adjoint := by
  intro x hx u hu y hy
  obtain ⟨m, n, hshape⟩ : ∃ m n, M.shape = [m, n] := List.length_eq_two.1 hM
  obtain ⟨batch, p, hrows⟩ := rows_of_multiply (o := true) hshape hu
  obtain ⟨u', hu', hushape, huentry⟩ := multiply_of_rows hshape hrows true
  cases hu.symm.trans hu'
  obtain ⟨hproduct, hlength, -⟩ := hrows.product m
  obtain ⟨N, hN, hNshape, hNentry⟩ := adjointMatrix_ok hshape
  have hyrows : RowsOf y.shape batch m p := by
    rw [hy, hushape]
    exact hproduct
  obtain ⟨v, hv, hvshape, hventry⟩ := multiply_of_rows hNshape hyrows M.columnsInOrder
  refine ⟨v, bind_eq_ok.2 ⟨N, hN, hv⟩, ?_, ?_⟩
  · rw [hvshape, hy, hushape, hlength, (hrows.product n).2.2, hx]
  have husize : u.size = batch.prod * m * p := by
    rw [size_eq, hushape, hproduct.prod]
  have hxsize : x.size = batch.prod * n * p := by
    rw [size_eq, hrows.prod]
  unfold dot
  rw [husize, hxsize]
  -- Both sides sum over an entry of the product and a column, or an entry of `x` and a row.
  calc ∑ i ∈ Finset.range (batch.prod * m * p), star (u.entry i) * y.entry i
      = ∑ i ∈ Finset.range (batch.prod * m * p), ∑ j ∈ Finset.range n,
          star (M.entry (i / p % m * n + across m n p i j / p % n) * x.entry (across m n p i j))
            * y.entry i := by
        apply Finset.sum_congr rfl
        intro i hi
        have hi' := Finset.mem_range.1 hi
        rw [huentry i hi', star_sum, Finset.sum_mul]
        apply Finset.sum_congr rfl
        intro j hj
        rw [across_coordinate hi' (Finset.mem_range.1 hj)]
    _ = ∑ k ∈ Finset.range (batch.prod * n * p), ∑ r ∈ Finset.range m,
          star (M.entry (across n m p k r / p % m * n + k / p % n) * x.entry k)
            * y.entry (across n m p k r) :=
        sum_across batch.prod m n p fun i k =>
          star (M.entry (i / p % m * n + k / p % n) * x.entry k) * y.entry i
    _ = ∑ k ∈ Finset.range (batch.prod * n * p), star (x.entry k) * v.entry k := by
        apply Finset.sum_congr rfl
        intro k hk
        have hk' := Finset.mem_range.1 hk
        have hcoordinate : k / p % n < n := by
          obtain ⟨a, b, c, -, hb, hc, rfl⟩ := exists_position hk'
          rwa [position_coordinate hb hc]
        rw [hventry k hk', Finset.mul_sum]
        apply Finset.sum_congr rfl
        intro r hr
        have hr' := Finset.mem_range.1 hr
        rw [across_coordinate hk' hr', hNentry _ hcoordinate r hr', star_mul']
        ring

/-! ## §2. Rotations and differences. -/

/-- Moving around a circle and back. -/
theorem shift_shift {n : ℕ} {b : ℕ} (hb : b < n) (t : ℤ) :
    ((((((b : ℤ) - t) % n).toNat : ℕ) : ℤ) - -t) % n = b := by
  have hnonneg : 0 ≤ ((b : ℤ) - t) % n := Int.emod_nonneg _ (by omega)
  rw [Int.toNat_of_nonneg hnonneg, sub_neg_eq_add, Int.emod_add_emod, sub_add_cancel,
    Int.emod_eq_of_lt (by omega) (by omega)]

theorem shift_lt {n : ℕ} {b : ℕ} (hb : b < n) (t : ℤ) : (((b : ℤ) - t) % n).toNat < n := by
  have hlt : ((b : ℤ) - t) % n < n := Int.emod_lt_of_pos _ (by omega)
  omega

/-- A sum over a circle, moved in one of two arguments or back in the other. -/
theorem sum_shift {M : Type*} [AddCommMonoid M] (n : ℕ) (t : ℤ) (f : ℕ → ℕ → M) :
    ∑ b ∈ Finset.range n, f (((b : ℤ) - t) % n).toNat b
      = ∑ j ∈ Finset.range n, f j (((j : ℤ) - -t) % n).toNat := by
  refine Finset.sum_nbij' (fun b => (((b : ℤ) - t) % n).toNat)
    (fun j => (((j : ℤ) - -t) % n).toNat) ?_ ?_ ?_ ?_ ?_
  · intro b hb
    exact Finset.mem_range.2 (shift_lt (Finset.mem_range.1 hb) t)
  · intro j hj
    exact Finset.mem_range.2 (shift_lt (Finset.mem_range.1 hj) (-t))
  · intro b hb
    rw [shift_shift (Finset.mem_range.1 hb) t]
    rfl
  · intro j hj
    have h := shift_shift (Finset.mem_range.1 hj) (-t)
    rw [neg_neg] at h
    rw [h]
    rfl
  · intro b hb
    show _ = f _ (((((((b : ℤ) - t) % n).toNat : ℕ) : ℤ) - -t) % n).toNat
    rw [shift_shift (Finset.mem_range.1 hb) t]
    rfl

/-- The position that is `t` places before a position on its line, around the circle. -/
def moved (n p : ℕ) (t : ℤ) (i : ℕ) : ℕ :=
  across n n p i (((i / p % n : ℕ) - t) % n).toNat

/-- A sum over all positions, moved in one of two arguments or back in the other. -/
theorem sum_moved {M : Type*} [AddCommMonoid M] (B n p : ℕ) (t : ℤ) (f : ℕ → ℕ → M) :
    ∑ i ∈ Finset.range (B * n * p), f (moved n p t i) i
      = ∑ i ∈ Finset.range (B * n * p), f i (moved n p (-t) i) := by
  -- A move changes the coordinate on the circle and nothing else.
  have hmoved : ∀ t a, ∀ c < p, ∀ b < n, moved n p t ((a * n + b) * p + c)
      = (a * n + (((b : ℤ) - t) % n).toNat) * p + c := by
    intro t a c hc b hb
    unfold moved
    rw [position_coordinate hb hc, across_position hb hc]
  rw [sum_axis, sum_axis]
  apply Finset.sum_congr rfl
  intro a _
  apply Finset.sum_congr rfl
  intro c hc
  have hc' := Finset.mem_range.1 hc
  calc ∑ b ∈ Finset.range n, f (moved n p t ((a * n + b) * p + c)) ((a * n + b) * p + c)
      = ∑ b ∈ Finset.range n,
          f ((a * n + (((b : ℤ) - t) % n).toNat) * p + c) ((a * n + b) * p + c) := by
        apply Finset.sum_congr rfl
        intro b hb
        rw [hmoved t a c hc' b (Finset.mem_range.1 hb)]
    _ = ∑ j ∈ Finset.range n,
          f ((a * n + j) * p + c) ((a * n + (((j : ℤ) - -t) % n).toNat) * p + c) :=
        sum_shift n t fun j b => f ((a * n + j) * p + c) ((a * n + b) * p + c)
    _ = ∑ j ∈ Finset.range n, f ((a * n + j) * p + c) (moved n p (-t) ((a * n + j) * p + c)) := by
        apply Finset.sum_congr rfl
        intro j hj
        rw [hmoved (-t) a c hc' j (Finset.mem_range.1 hj)]

namespace Tensor

theorem axisOf_lt {axes : ℕ} {axis : ℤ} {p : ℕ} (h : axisOf axes axis = some p) : p < axes := by
  unfold axisOf at h
  split_ifs at h <;> cases h <;> omega

/-- A tensor with entries that could be rotated has the axis. -/
theorem axis_of_rotate {x w : Tensor Unit 𝕜} {axis t : ℤ} (hsize : x.size ≠ 0)
    (h : (x.rotate t axis : Except (Failure ℝ) _) = .ok w) : ∃ p, axisOf x.axes axis = some p := by
  unfold rotate at h
  rw [if_neg hsize] at h
  cases haxis : axisOf x.axes axis with
  | none =>
    rw [haxis] at h
    cases h
  | some p => exact ⟨p, rfl⟩

/-- The entries of a rotated tensor. -/
theorem rotate_of_axis {x : Tensor Unit 𝕜} {axis : ℤ} {p : ℕ}
    (haxis : axisOf x.axes axis = some p) (t : ℤ) :
    ∃ w, (x.rotate t axis : Except (Failure ℝ) _) = .ok w ∧ w.shape = x.shape ∧ ∀ i < x.size,
      w.entry i = x.entry (moved (x.shape.getD p 1) (stride x.shape p) t i) := by
  unfold rotate
  by_cases hsize : x.size = 0
  · rw [if_pos hsize]
    exact ⟨x, rfl, rfl, fun i hi => by omega⟩
  · rw [if_neg hsize, haxis]
    have hset := set_axis (axisOf_lt haxis)
    refine ⟨_, rfl, hset, ?_⟩
    intro i hi
    rw [size_eq, ← hset] at hi
    exact entryD_alongAxis _ _ _ _ hi

/-- **The adjoint of a rotation is the rotation back.** -/
theorem dot_rotate {x y w : Tensor Unit 𝕜} {axis t : ℤ}
    (h : (x.rotate t axis : Except (Failure ℝ) _) = .ok w) (hy : y.shape = x.shape) :
    w.shape = x.shape ∧ ∃ w', (y.rotate (-t) axis : Except (Failure ℝ) _) = .ok w'
      ∧ w'.shape = x.shape ∧ dot w y = dot x w' := by
  have hysize : y.size = x.size := by rw [size_eq, hy, ← size_eq]
  by_cases hsize : x.size = 0
  · -- A tensor without entries is its own rotation, whatever the axis.
    unfold rotate at h ⊢
    rw [if_pos hsize] at h
    rw [if_pos (hysize.trans hsize)]
    cases h
    refine ⟨rfl, y, rfl, hy, ?_⟩
    unfold dot
    rw [hsize, Finset.sum_range_zero]
  · obtain ⟨p, haxis⟩ := axis_of_rotate hsize h
    have hyaxis : axisOf y.axes axis = some p := by
      unfold axes
      rw [hy]
      exact haxis
    obtain ⟨w₁, hw₁, hshape₁, hentry₁⟩ := rotate_of_axis haxis t
    obtain ⟨w₂, hw₂, hshape₂, hentry₂⟩ := rotate_of_axis hyaxis (-t)
    cases h.symm.trans hw₁
    refine ⟨hshape₁, w₂, hw₂, hshape₂.trans hy, ?_⟩
    have hxsize := (size_eq x).trans (prod_axis (axisOf_lt haxis))
    have hwsize : w.size = x.size := by rw [size_eq, hshape₁, ← size_eq]
    rw [hysize, hy] at hentry₂
    unfold dot
    rw [hwsize]
    -- What was moved by `t` on one side is moved back on the other.
    calc ∑ i ∈ Finset.range x.size, star (w.entry i) * y.entry i
        = ∑ i ∈ Finset.range x.size,
            star (x.entry (moved (x.shape.getD p 1) (stride x.shape p) t i)) * y.entry i := by
          apply Finset.sum_congr rfl
          intro i hi
          rw [hentry₁ i (Finset.mem_range.1 hi)]
      _ = ∑ i ∈ Finset.range x.size,
            star (x.entry i) * y.entry (moved (x.shape.getD p 1) (stride x.shape p) (-t) i) := by
          rw [hxsize]
          exact sum_moved _ _ _ t fun i j => star (x.entry i) * y.entry j
      _ = ∑ i ∈ Finset.range x.size, star (x.entry i) * w₂.entry i := by
          apply Finset.sum_congr rfl
          intro i hi
          rw [hentry₂ i (Finset.mem_range.1 hi)]

end Tensor

/-- A difference accepts every tensor that has the axis. -/
theorem Operator.returns_difference {axis : ℤ} {D : List ℕ} {p : ℕ}
    (haxis : axisOf D.length axis = some p) :
    Returns D (difference axis : Operator (Except (Failure ℝ)) ℝ Unit 𝕜) D := by
  intro x hx
  have hxaxis : axisOf x.axes axis = some p := by
    unfold Tensor.axes
    rwa [hx]
  obtain ⟨w, hw, hwshape, -⟩ := rotate_of_axis hxaxis (-1)
  obtain ⟨u, hu, hushape, -⟩ := sub_of_shape hwshape
  exact ⟨u, bind_eq_ok.2 ⟨w, hw, hu⟩, hushape.trans (hwshape.trans hx)⟩

/-- **The directions of a difference are mutually adjoint**, along any axis. -/
theorem Operator.adjoint_difference (axis : ℤ) (D : List ℕ) :
    MutuallyAdjoint D (difference axis : Operator (Except (Failure ℝ)) ℝ Unit 𝕜).forward
      (difference axis).adjoint := by
  intro x hx u hu y hy
  obtain ⟨w, hw, hu⟩ := bind_eq_ok.1 hu
  have hwshape : w.shape = x.shape := (dot_rotate hw rfl).1
  obtain ⟨u', hu', hushape, huentry⟩ := sub_of_shape hwshape
  cases hu.symm.trans hu'
  have hyshape : y.shape = x.shape := hy.trans (hushape.trans hwshape)
  obtain ⟨-, w', hw', hwshape', hdot⟩ := dot_rotate hw hyshape
  obtain ⟨v, hv, hvshape, hventry⟩ := sub_of_shape (hwshape'.trans hyshape.symm)
  -- Less the tensor itself on either side, the adjoint is that of the rotation.
  refine ⟨v, bind_eq_ok.2 ⟨w', hw', hv⟩, hvshape.trans (hwshape'.trans hx), ?_⟩
  have husize : u.size = w.size := by rw [size_eq, hushape, ← size_eq]
  have hwsize : w.size = x.size := by rw [size_eq, hwshape, ← size_eq]
  have hwsize' : w'.size = x.size := by rw [size_eq, hwshape', ← size_eq]
  calc dot u y = dot w y - dot x y := by
        unfold dot
        rw [husize, ← hwsize, ← Finset.sum_sub_distrib]
        apply Finset.sum_congr rfl
        intro i hi
        rw [huentry i (Finset.mem_range.1 hi), star_sub, sub_mul]
    _ = dot x w' - dot x y := by rw [hdot]
    _ = dot x v := by
        unfold dot
        rw [← Finset.sum_sub_distrib]
        apply Finset.sum_congr rfl
        intro i hi
        rw [hventry i (hwsize'.symm ▸ Finset.mem_range.1 hi), mul_sub]

end PrimalDual
