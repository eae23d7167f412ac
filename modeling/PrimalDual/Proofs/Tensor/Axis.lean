/-
  PrimalDual.Proofs.Tensor.Axis
  ─────────────────────────────
  **POSITIONS ALONG ONE AXIS.**

  An operation along an axis reads, for each position `i` of its result, the
  positions `across … i j` of its operand: those on the line at the same
  place, by their coordinate `j`.  The axis may have another length in the
  result, and `p` entries stand behind it in both:

      i            =  (x n' + b) p + c
      across … i j =  (x n  + j) p + c

  A sum over all pairs of positions on common lines can be taken from either
  side (`sum_across`).  Every adjoint pair of operations along an axis is an
  instance of this exchange.
-/
import PrimalDual.Proofs.Exact.Arithmetic

namespace PrimalDual

namespace Tensor

/-! ## §1. Positions on a line. -/

/-- The position with coordinate `j` on the line of position `i`.  The axis has length `n'`
where `i` is a position, length `n` in the tensor that is read, and `p` entries behind it. -/
def across (n' n p i j : ℕ) : ℕ := (i / (n' * p) * n + j) * p + i % p

section Position

variable {n' n p x b c : ℕ}

/-- The row of a position in rows of `p` entries. -/
theorem row_div (hc : c < p) : (x * p + c) / p = x := by
  rw [Nat.mul_comm, Nat.mul_add_div (by omega), Nat.div_eq_of_lt hc, Nat.add_zero]

theorem row_mod (hc : c < p) : (x * p + c) % p = c := by
  rw [Nat.mul_comm, Nat.mul_add_mod, Nat.mod_eq_of_lt hc]

theorem row_lt {B : ℕ} (hx : x < B) (hc : c < p) : x * p + c < B * p :=
  calc x * p + c < x * p + p := by omega
    _ = (x + 1) * p := (Nat.succ_mul x p).symm
    _ ≤ B * p := Nat.mul_le_mul_right p hx

/-- The block of a position on an axis with `n'` entries of stride `p`. -/
theorem position_div (hb : b < n') (hc : c < p) : ((x * n' + b) * p + c) / (n' * p) = x := by
  rw [Nat.mul_comm n' p, ← Nat.div_div_eq_div_mul, row_div hc, row_div hb]

/-- The coordinate of a position on the axis. -/
theorem position_coordinate (hb : b < n') (hc : c < p) :
    ((x * n' + b) * p + c) / p % n' = b := by
  rw [row_div hc, row_mod hb]

/-- The line through a position changes its coordinate and nothing else. -/
theorem across_position (hb : b < n') (hc : c < p) (j : ℕ) :
    across n' n p ((x * n' + b) * p + c) j = (x * n + j) * p + c := by
  unfold across
  rw [position_div hb hc, row_mod hc]

/-- Every position has a line, a coordinate on it and an offset. -/
theorem exists_position {B i : ℕ} (h : i < B * n' * p) :
    ∃ x b c, x < B ∧ b < n' ∧ c < p ∧ i = (x * n' + b) * p + c := by
  have hp : 0 < p := Nat.pos_of_ne_zero (by rintro rfl; simp at h)
  have hn : 0 < n' := Nat.pos_of_ne_zero (by rintro rfl; simp at h)
  refine ⟨i / p / n', i / p % n', i % p, ?_, Nat.mod_lt _ hn, Nat.mod_lt _ hp, ?_⟩
  · rw [Nat.div_div_eq_div_mul, Nat.div_lt_iff_lt_mul (Nat.mul_pos hp hn), Nat.mul_comm p n',
      ← Nat.mul_assoc]
    exact h
  · rw [Nat.mul_comm (i / p / n'), Nat.div_add_mod, Nat.mul_comm, Nat.div_add_mod]

theorem position_lt {B : ℕ} (hx : x < B) (hb : b < n) (hc : c < p) :
    (x * n + b) * p + c < B * n * p :=
  row_lt (row_lt hx hb) hc

/-- A line through the tensor stays in it. -/
theorem across_lt {B i j : ℕ} (h : i < B * n' * p) (hj : j < n) :
    across n' n p i j < B * n * p := by
  obtain ⟨x, b, c, hx, hb, hc, rfl⟩ := exists_position h
  rw [across_position hb hc]
  exact position_lt hx hj hc

/-- The `j`-th position of a line has the coordinate `j`. -/
theorem across_coordinate {B i j : ℕ} (h : i < B * n' * p) (hj : j < n) :
    across n' n p i j / p % n = j := by
  obtain ⟨x, b, c, -, hb, hc, rfl⟩ := exists_position h
  rw [across_position hb hc, position_coordinate hj hc]

end Position

/-! ## §2. Positions on two axes. -/

section TwoAxes

variable {n m q t A B x l c : ℕ}

/-- The position with coordinate `B` along an axis of length `n` and coordinate `l` along an
axis of length `m` behind it. -/
def crossing (n m q t A B x l c : ℕ) : ℕ := (A * n + B) * (m * q * t) + ((x * m + l) * q + c)

/-- All lines of the second axis lie within the entries behind the first. -/
theorem rest_lt (hx : x < t) (hl : l < m) (hc : c < q) : (x * m + l) * q + c < m * q * t := by
  have h := position_lt hx hl hc
  rwa [Nat.mul_assoc, Nat.mul_comm t] at h

theorem crossing_eq : crossing n m q t A B x l c = (((A * n + B) * t + x) * m + l) * q + c := by
  unfold crossing
  ring

/-- A line along the first of two axes keeps the other coordinates. -/
theorem across_first (hB : B < n) (hx : x < t) (hl : l < m) (hc : c < q) (j : ℕ) :
    across n n (m * q * t) (crossing n m q t A B x l c) j = crossing n m q t A j x l c :=
  across_position hB (rest_lt hx hl hc) j

theorem across_second (hl : l < m) (hc : c < q) (j : ℕ) :
    across m m q (crossing n m q t A B x l c) j = crossing n m q t A B x j c := by
  rw [crossing_eq, crossing_eq, across_position hl hc]

theorem coordinate_first (hB : B < n) (hx : x < t) (hl : l < m) (hc : c < q) :
    crossing n m q t A B x l c / (m * q * t) % n = B :=
  position_coordinate hB (rest_lt hx hl hc)

theorem coordinate_second (hl : l < m) (hc : c < q) :
    crossing n m q t A B x l c / q % m = l := by
  rw [crossing_eq, position_coordinate hl hc]

/-- Every position lies on one line along each of two axes. -/
theorem exists_crossing (hn : 0 < n) (hp : 0 < m * q * t) (i : ℕ) : ∃ A B x l c,
    B < n ∧ x < t ∧ l < m ∧ c < q ∧ i = crossing n m q t A B x l c := by
  obtain ⟨x, l, c, hx, hl, hc, hrest⟩ : ∃ x l c, x < t ∧ l < m ∧ c < q
      ∧ i % (m * q * t) = (x * m + l) * q + c :=
    exists_position ((Nat.mod_lt i hp).trans_eq (by ring))
  refine ⟨i / (m * q * t) / n, i / (m * q * t) % n, x, l, c, Nat.mod_lt _ hn, hx, hl, hc, ?_⟩
  unfold crossing
  rw [← hrest, Nat.div_add_mod', Nat.div_add_mod']

end TwoAxes

/-! ## §3. Sums over lines. -/

section Sums

variable {M : Type*} [AddCommMonoid M]

/-- A sum over all positions is a sum over rows. -/
theorem sum_range_mul (a b : ℕ) (f : ℕ → M) :
    ∑ i ∈ Finset.range (a * b), f i
      = ∑ x ∈ Finset.range a, ∑ y ∈ Finset.range b, f (x * b + y) := by
  induction a with
  | zero => simp
  | succ a ih => rw [Nat.succ_mul, Finset.sum_range_add, Finset.sum_range_succ, ih]

/-- A sum over all positions is a sum over lines, coordinates and offsets. -/
theorem sum_axis (B n p : ℕ) (f : ℕ → M) :
    ∑ i ∈ Finset.range (B * n * p), f i = ∑ x ∈ Finset.range B, ∑ c ∈ Finset.range p,
      ∑ j ∈ Finset.range n, f ((x * n + j) * p + c) := by
  rw [sum_range_mul, sum_range_mul]
  exact Finset.sum_congr rfl fun x _ => Finset.sum_comm

/-- **Pairs of positions on common lines**, counted from either side. -/
theorem sum_across (B n' n p : ℕ) (f : ℕ → ℕ → M) :
    ∑ i ∈ Finset.range (B * n' * p), ∑ j ∈ Finset.range n, f i (across n' n p i j)
      = ∑ k ∈ Finset.range (B * n * p), ∑ b ∈ Finset.range n', f (across n n' p k b) k := by
  rw [sum_axis, sum_axis]
  apply Finset.sum_congr rfl
  intro x _
  apply Finset.sum_congr rfl
  intro c hc
  have hc' := Finset.mem_range.1 hc
  -- On a common line the pair is given by its two coordinates, whichever is counted first.
  calc ∑ b ∈ Finset.range n', ∑ j ∈ Finset.range n,
        f ((x * n' + b) * p + c) (across n' n p ((x * n' + b) * p + c) j)
      = ∑ b ∈ Finset.range n', ∑ j ∈ Finset.range n,
        f ((x * n' + b) * p + c) ((x * n + j) * p + c) := by
        apply Finset.sum_congr rfl
        intro b hb
        apply Finset.sum_congr rfl
        intro j _
        rw [across_position (Finset.mem_range.1 hb) hc']
    _ = ∑ j ∈ Finset.range n, ∑ b ∈ Finset.range n',
        f ((x * n' + b) * p + c) ((x * n + j) * p + c) := Finset.sum_comm
    _ = ∑ j ∈ Finset.range n, ∑ b ∈ Finset.range n',
        f (across n n' p ((x * n + j) * p + c) b) ((x * n + j) * p + c) := by
        apply Finset.sum_congr rfl
        intro j hj
        apply Finset.sum_congr rfl
        intro b _
        rw [across_position (Finset.mem_range.1 hj) hc']

end Sums

/-! ## §4. Shapes around an axis. -/

section Shapes

variable {s : List ℕ} {p : ℕ}

theorem getD_axis (hp : p < s.length) : s.getD p 1 = s[p] := by
  rw [List.getD_eq_getElem?_getD, List.getElem?_eq_getElem hp, Option.getD_some]

/-- A shape is the lengths before an axis, its own and those after it. -/
theorem split_axis (hp : p < s.length) : s = s.take p ++ s.getD p 1 :: s.drop (p + 1) := by
  rw [getD_axis hp, List.cons_getElem_drop_succ, List.take_append_drop]

/-- The size of a tensor by the blocks, the length and the stride of an axis. -/
theorem prod_axis (hp : p < s.length) :
    s.prod = (s.take p).prod * s.getD p 1 * stride s p := by
  conv_lhs => rw [split_axis hp]
  rw [List.prod_append, List.prod_cons, Nat.mul_assoc]
  rfl

theorem prod_set_axis (hp : p < s.length) (n : ℕ) :
    (s.set p n).prod = (s.take p).prod * n * stride s p := by
  rw [List.set_eq_take_append_cons_drop, if_pos hp, List.prod_append, List.prod_cons,
    Nat.mul_assoc]
  rfl

theorem set_axis (hp : p < s.length) : s.set p (s.getD p 1) = s := by
  rw [getD_axis hp, List.set_getElem_self]

/-- The entries behind an axis lie in whole lines of every axis behind it. -/
theorem stride_dvd {q : ℕ} (hpq : p < q) (hq : q < s.length) :
    s.getD q 1 * stride s q ∣ stride s p := by
  unfold stride
  have hdrop : q - (p + 1) < (s.drop (p + 1)).length := by
    rw [List.length_drop]
    omega
  have h := prod_axis hdrop
  have hget : (s.drop (p + 1)).getD (q - (p + 1)) 1 = s.getD q 1 := by
    rw [List.getD_eq_getElem?_getD, List.getD_eq_getElem?_getD, List.getElem?_drop,
      show p + 1 + (q - (p + 1)) = q by omega]
  have hstride : stride (s.drop (p + 1)) (q - (p + 1)) = (s.drop (q + 1)).prod := by
    unfold stride
    rw [List.drop_drop, show p + 1 + (q - (p + 1) + 1) = q + 1 by omega]
  rw [hget, hstride, Nat.mul_assoc] at h
  exact ⟨_, h.trans (Nat.mul_comm _ _)⟩

end Shapes

/-! ## §5. Entries of the results. -/

section Entries

variable {κ α β : Type} {x : Tensor κ α} {p n i : ℕ}

/-- An entry of a map along an axis is read off the line through its position. -/
theorem entryD_alongAxis (kind : κ) (d : α) (e : β) (f : (ℕ → α) → ℕ → β)
    (hi : i < (x.shape.set p n).prod) :
    (alongAxis kind d p n f x).entryD e i = f (fun j => x.entryD d
      (across n (x.shape.getD p 1) (stride x.shape p) i j)) (i / stride x.shape p % n) :=
  entryD_tabulate kind _ _ e hi

/-- An entry of a map of lines is one of the image of the line through its position. -/
theorem entryD_mapLines (kind : κ) (d : α) (e : β) (f : (ℕ → α) → Array β)
    (hp : p < x.shape.length) (hi : i < (x.shape.set p n).prod) :
    (mapLines kind d e p n f x).entryD e i = (f fun j => x.entryD d
      (across n (x.shape.getD p 1) (stride x.shape p) i j)).getD (i / stride x.shape p % n) e := by
  refine (entryD_tabulate kind _ _ e hi).trans ?_
  rw [prod_set_axis hp] at hi
  obtain ⟨a, b, c, ha, hb, hc, rfl⟩ := exists_position hi
  have hline : a * stride x.shape p + c < (x.shape.take p).prod * stride x.shape p := row_lt ha hc
  rw [position_div hb hc, row_mod hc, position_coordinate hb hc]
  refine congrArg (fun line : Array β => line.getD b e) ?_
  rw [Array.getD_eq_getD_getElem?, Array.getElem?_eq_getElem (by rw [Array.size_ofFn]; exact hline),
    Array.getElem_ofFn, Option.getD_some]
  simp only [across_position hb hc, row_div hc, row_mod hc]

end Entries

end Tensor

end PrimalDual
