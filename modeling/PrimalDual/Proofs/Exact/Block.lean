/-
  PrimalDual.Proofs.Exact.Block
  ─────────────────────────────
  **THE TWO BLOCKS OF A DUAL VECTOR.**

  A dual vector is read in two blocks: its last `q` entries, and everything
  before them.  `lead q` and `trail q` keep one block and put zeros in the
  place of the other, so both stay in the space of the whole vector:

      v = lead q v + trail q v,     ⟪lead q u, trail q v⟫ = 0

  On tensors the blocks are cut off and joined again; §3 says that this is
  reading the entries of the vector in order.
-/
import PrimalDual.Proofs.Exact.Space

namespace PrimalDual

open scoped InnerProductSpace

variable {𝕜 : Type} [RCLike 𝕜] {s : List ℕ}

/-! ## §1. The blocks. -/

/-- The vector with its last `q` entries replaced by zero. -/
noncomputable def lead (q : ℕ) : Space 𝕜 s →ₗ[𝕜] Space 𝕜 s where
  toFun v := WithLp.toLp 2 fun i => if i + q < s.prod then v i else 0
  map_add' u v := by
    ext i
    by_cases h : i + q < s.prod <;> simp [h]
  map_smul' c v := by
    ext i
    by_cases h : i + q < s.prod <;> simp [h]

/-- The vector with everything before its last `q` entries replaced by zero. -/
noncomputable def trail (q : ℕ) : Space 𝕜 s →ₗ[𝕜] Space 𝕜 s where
  toFun v := WithLp.toLp 2 fun i => if i + q < s.prod then 0 else v i
  map_add' u v := by
    ext i
    by_cases h : i + q < s.prod <;> simp [h]
  map_smul' c v := by
    ext i
    by_cases h : i + q < s.prod <;> simp [h]

theorem lead_apply (q : ℕ) (v : Space 𝕜 s) (i : Fin s.prod) :
    lead q v i = if i + q < s.prod then v i else 0 := rfl

theorem trail_apply (q : ℕ) (v : Space 𝕜 s) (i : Fin s.prod) :
    trail q v i = if i + q < s.prod then 0 else v i := rfl

/-- **A vector is the sum of its parts.** -/
theorem lead_add_trail (q : ℕ) (v : Space 𝕜 s) : lead q v + trail q v = v := by
  ext i
  by_cases h : i + q < s.prod <;> simp [lead_apply, trail_apply, h]

@[simp] theorem lead_lead (q : ℕ) (v : Space 𝕜 s) : lead q (lead q v) = lead q v := by
  ext i
  by_cases h : i + q < s.prod <;> simp [lead_apply, h]

@[simp] theorem trail_lead (q : ℕ) (v : Space 𝕜 s) : trail q (lead q v) = 0 := by
  ext i
  by_cases h : i + q < s.prod <;> simp [lead_apply, trail_apply, h]

@[simp] theorem lead_trail (q : ℕ) (v : Space 𝕜 s) : lead q (trail q v) = 0 := by
  ext i
  by_cases h : i + q < s.prod <;> simp [lead_apply, trail_apply, h]

@[simp] theorem trail_trail (q : ℕ) (v : Space 𝕜 s) : trail q (trail q v) = trail q v := by
  ext i
  by_cases h : i + q < s.prod <;> simp [trail_apply, h]

/-- The blocks are orthogonal, so inner products are taken block by block. -/
theorem inner_eq_blocks (q : ℕ) (u v : Space 𝕜 s) :
    ⟪u, v⟫_𝕜 = ⟪lead q u, lead q v⟫_𝕜 + ⟪trail q u, trail q v⟫_𝕜 := by
  rw [PiLp.inner_apply, PiLp.inner_apply, PiLp.inner_apply, ← Finset.sum_add_distrib]
  apply Finset.sum_congr rfl
  intro i _
  by_cases h : i + q < s.prod <;> simp [lead_apply, trail_apply, h]

/-- The theorem of Pythagoras for the parts of a vector. -/
theorem norm_sq_eq_blocks (q : ℕ) (v : Space 𝕜 s) :
    ‖v‖ ^ 2 = ‖lead q v‖ ^ 2 + ‖trail q v‖ ^ 2 := by
  have h := congrArg RCLike.re (inner_eq_blocks q v v)
  rwa [map_add, inner_self_eq_norm_sq, inner_self_eq_norm_sq, inner_self_eq_norm_sq] at h

/-! ## §2. Magnitudes of the trailing block. -/

/-- The sum of the magnitudes of the last `q` entries. -/
noncomputable def trailSum (q : ℕ) (v : Space 𝕜 s) : ℝ := ∑ i, ‖trail q v i‖

/-- The last `q` entries have magnitude at most 1. -/
def InBox (q : ℕ) (v : Space 𝕜 s) : Prop := ∀ i : Fin s.prod, s.prod ≤ i + q → ‖v i‖ ≤ 1

/-- The sum of the trailing magnitudes is absolutely homogeneous. -/
theorem trailSum_smul (q : ℕ) (c : 𝕜) (v : Space 𝕜 s) :
    trailSum q (c • v) = ‖c‖ * trailSum q v := by
  unfold trailSum
  rw [map_smul, Finset.mul_sum]
  exact Finset.sum_congr rfl fun i _ => norm_mul _ _

/-- Nothing but the trailing block counts. -/
theorem trailSum_sub {q : ℕ} {b : Space 𝕜 s} (hb : trail q b = 0) (v : Space 𝕜 s) :
    trailSum q (v - b) = trailSum q v := by
  unfold trailSum
  rw [map_sub, hb, sub_zero]

/-- In the box no trailing entry is larger than 1. -/
theorem InBox.norm_trail_le {q : ℕ} {v : Space 𝕜 s} (h : InBox q v) (i : Fin s.prod) :
    ‖trail q v i‖ ≤ 1 := by
  by_cases hi : i + q < s.prod
  · simp [trail_apply, hi]
  · rw [trail_apply, if_neg hi]
    exact h i (by omega)

/-- A vector of the box meets another at most in the norms of the leading blocks and
the magnitudes of the trailing one. -/
theorem InBox.re_inner_le {q : ℕ} {w : Space 𝕜 s} (h : InBox q w) (v : Space 𝕜 s) :
    RCLike.re ⟪v, w⟫_𝕜 ≤ ‖lead q v‖ * ‖lead q w‖ + trailSum q v := by
  rw [inner_eq_blocks q, map_add]
  refine add_le_add (re_inner_le_norm _ _) ?_
  rw [PiLp.inner_apply, map_sum]
  apply Finset.sum_le_sum
  intro i _
  refine (re_inner_le_norm _ _).trans ?_
  exact mul_le_of_le_one_right (norm_nonneg _) (h.norm_trail_le i)

/-- No more than `q` entries are trailing. -/
theorem card_trail_le (s : List ℕ) (q : ℕ) :
    (Finset.univ.filter fun i : Fin s.prod => ¬ (i : ℕ) + q < s.prod).card ≤ q := by
  -- Counted from the end, the trailing positions are below `q`.
  refine le_trans ?_ (Finset.card_range q).le
  refine Finset.card_le_card_of_injOn (fun i => s.prod - 1 - i) ?_ ?_
  · intro i hi
    have hi' := (Finset.mem_filter.1 (Finset.mem_coe.1 hi)).2
    refine Finset.mem_coe.2 (Finset.mem_range.2 ?_)
    have := i.isLt
    show s.prod - 1 - (i : ℕ) < q
    omega
  · intro i _ j _ hij
    have := i.isLt
    have := j.isLt
    have hij' : s.prod - 1 - (i : ℕ) = s.prod - 1 - (j : ℕ) := hij
    exact Fin.ext (by omega)

/-- A sum over the trailing positions has no more than `q` terms. -/
theorem sum_trailing_le {f : Fin s.prod → ℝ} {c : ℝ} {q : ℕ} (hc : 0 ≤ c)
    (h : ∀ i, f i ≤ if (i : ℕ) + q < s.prod then 0 else c) : ∑ i, f i ≤ q * c := by
  calc ∑ i, f i
      ≤ ∑ i : Fin s.prod, if ¬ (i : ℕ) + q < s.prod then c else 0 := by
        apply Finset.sum_le_sum
        intro i _
        refine (h i).trans_eq ?_
        rw [ite_not]
    _ = (Finset.univ.filter fun i : Fin s.prod => ¬ (i : ℕ) + q < s.prod).card * c := by
        rw [← Finset.sum_filter, Finset.sum_const, nsmul_eq_mul]
    _ ≤ q * c := mul_le_mul_of_nonneg_right (Nat.cast_le.2 (card_trail_le s q)) hc

/-! ## §3. Cutting and joining tensors. -/

namespace Tensor

/-- A shape without inferred lengths stands for itself, and for nothing else. -/
theorem inferShape_map_ofNat (n : ℕ) (s : List ℕ) :
    inferShape n (s.map Int.ofNat) = if s.prod = n then some s else none := by
  -- No length of a shape is negative, so none is taken for one to be inferred.
  have hfilter : (s.map Int.ofNat).filter (· != -1) = s.map Int.ofNat := by
    apply List.filter_eq_self.2
    intro d hd
    obtain ⟨n, -, rfl⟩ := List.mem_map.1 hd
    simp
  have hany : (s.map Int.ofNat).any (· < -1) = false := by
    apply List.any_eq_false.2
    intro d hd
    obtain ⟨n, -, rfl⟩ := List.mem_map.1 hd
    simp
  have hcount : (s.map Int.ofNat).count (-1) = 0 := by
    apply List.count_eq_zero.2
    intro hd
    obtain ⟨n, -, hn⟩ := List.mem_map.1 hd
    exact absurd hn (by simp)
  have hnat : (s.map Int.ofNat).map Int.toNat = s := by
    simp [Function.comp_def]
  simp only [inferShape, hfilter, hany, hcount, hnat]
  simp

theorem inferShape_self (s : List ℕ) : inferShape s.prod (s.map Int.ofNat) = some s := by
  rw [inferShape_map_ofNat, if_pos rfl]

/-- The number of entries of a shape, read from its lengths as integers. -/
theorem prod_map_ofNat (s : List ℕ) : (s.map Int.ofNat).foldr (· * ·) 1 = (s.prod : ℤ) := by
  induction s with
  | nil => rfl
  | cons d s ih =>
    rw [List.map_cons, List.foldr_cons, ih, List.prod_cons]
    exact (Nat.cast_mul d s.prod).symm

/-- A tensor that was reshaped holds its entries in the shape that was inferred. -/
theorem reshape_eq_ok {κ α R : Type} {x z : Tensor κ α} {s : List ℤ} :
    (x.reshape s : Except (Failure R) _) = .ok z
      ↔ ∃ (t : List ℕ) (h : t.prod = x.size), inferShape x.size s = some t
          ∧ x.withShape t h = z := by
  unfold reshape
  cases hs : inferShape x.size s with
  | none =>
    constructor
    · intro h
      cases h
    · rintro ⟨t, -, ht, -⟩
      cases ht
  | some t =>
    by_cases hsize : t.prod = x.size
    · simp only [hsize, dif_pos]
      constructor
      · intro h
        exact ⟨t, hsize, rfl, Except.ok.inj h⟩
      · rintro ⟨t', hsize', ht, rfl⟩
        cases ht
        rfl
    · simp only [hsize, dif_neg, not_false_eq_true]
      constructor
      · intro h
        cases h
      · rintro ⟨t', hsize', ht, -⟩
        cases ht
        exact absurd hsize' hsize

/-- A tensor reshaped to a shape has that shape. -/
theorem shape_of_reshape {κ α R : Type} {x z : Tensor κ α} {s : List ℕ}
    (h : (x.reshape (s.map Int.ofNat) : Except (Failure R) _) = .ok z) : z.shape = s := by
  obtain ⟨t, ht, hinfer, rfl⟩ := reshape_eq_ok.1 h
  rw [inferShape_map_ofNat] at hinfer
  split_ifs at hinfer
  exact (Option.some.inj hinfer).symm

/-- Rows change the length of the first axis only. -/
theorem shape_rows {κ α R : Type} [Control R] [Entry α R κ] {x u : Tensor κ α} {first count : ℕ}
    (h : (x.rows first count : Except (Failure R) _) = .ok u) : u.shape = count :: x.shape.tail := by
  unfold rows at h
  split at h
  · cases h
  · rename_i hshape
    cases h
    rw [hshape]
    rfl

theorem shape_append {κ α R : Type} [Control R] [Kinds κ] [Entry α R κ] {x y z : Tensor κ α}
    (h : (x.append y : Except (Failure R) _) = .ok z) : z.shape = [x.size + y.size] := by
  unfold append at h
  split at h
  · cases h
    rfl
  · cases h

/-- Whatever the cut, the two blocks have the entries of the tensor between them. -/
theorem size_leading_add_trailing {κ α R : Type} [Control R] [Entry α R κ] {x u v : Tensor κ α}
    {cut : ℤ} (hu : (x.leading cut : Except (Failure R) _) = .ok u)
    (hv : (x.trailing cut : Except (Failure R) _) = .ok v) : u.size + v.size = x.size := by
  unfold leading rows at hu
  unfold trailing rows at hv
  rw [size_eq x]
  cases hshape : x.shape with
  | nil =>
    rw [hshape] at hu
    cases hu
  | cons n rest =>
    rw [hshape] at hu hv
    cases hu
    cases hv
    rw [size_tabulate, size_tabulate, List.prod_cons, List.prod_cons, List.prod_cons, ← add_mul]
    have hcut := cutPoint_le n cut
    rw [List.headD_cons, Nat.add_sub_cancel' hcut]

theorem withShape_tabulate {κ α : Type} {k : κ} {t : List ℕ} (f : ℕ → α)
    (h : s.prod = (tabulate k t f).size) :
    (tabulate k t f).withShape s h = tabulate k s f := by
  have hofFn : ∀ m n : ℕ, m = n →
      Array.ofFn (fun i : Fin m => f i) = Array.ofFn (fun i : Fin n => f i) := by
    intro m n hmn
    subst hmn
    rfl
  -- The two tensors are the same table, read through equal lengths.
  refine ext rfl rfl (hofFn _ _ ?_)
  rw [h, size_tabulate]

/-- Reshaping keeps the entries in their order. -/
theorem reshape_tabulate {κ α R : Type} {k : κ} {t : List ℕ} (f : ℕ → α) (h : t.prod = s.prod) :
    ((tabulate k t f).reshape (s.map Int.ofNat) : Except (Failure R) _)
      = .ok (tabulate k s f) := by
  have hsize : s.prod = (tabulate k t f).size := by rw [size_tabulate, h]
  simp only [reshape, ← hsize, inferShape_self, dif_pos]
  exact congrArg Except.ok (withShape_tabulate f hsize)

theorem flatten_tabulate {κ α : Type} {k : κ} (f : ℕ → α) :
    (tabulate k s f).flatten = tabulate k [s.prod] f := by
  show (tabulate k s f).withShape [(tabulate k s f).size] _ = _
  rw [withShape_tabulate, size_tabulate]

theorem rows_tabulate {κ α R : Type} [Control R] [Entry α R κ] {k : κ} {n first count : ℕ}
    (f : ℕ → α) (h : first + count ≤ n) :
    ((tabulate k [n] f).rows first count : Except (Failure R) _)
      = .ok (tabulate k [count] fun i => f (first + i)) := by
  refine congrArg Except.ok (tabulate_congr _ _ ?_)
  intro i hi
  rw [List.prod_singleton] at hi
  rw [List.prod_nil, mul_one, entry_tabulate _ _ _ (by rw [List.prod_singleton]; omega)]

/-- A cut inside the axis is where it is said to be. -/
theorem cutPoint_of_le {n m : ℕ} (h : m ≤ n) : cutPoint n m = m := by
  unfold cutPoint
  rw [if_neg (by omega)]
  omega

/-- Wherever the cut is, the rows before it. -/
theorem leading_cutPoint {κ α R : Type} [Control R] [Entry α R κ] {k : κ} {n : ℕ} (f : ℕ → α)
    (cut : ℤ) : ((tabulate k [n] f).leading cut : Except (Failure R) _)
      = .ok (tabulate k [cutPoint n cut] f) := by
  show (tabulate k [n] f).rows 0 (cutPoint n cut) = _
  have hcut := cutPoint_le n cut
  rw [rows_tabulate f (by omega)]
  simp

/-- Wherever the cut is, the rows from it on. -/
theorem trailing_cutPoint {κ α R : Type} [Control R] [Entry α R κ] {k : κ} {n : ℕ} (f : ℕ → α)
    (cut : ℤ) : ((tabulate k [n] f).trailing cut : Except (Failure R) _)
      = .ok (tabulate k [n - cutPoint n cut] fun i => f (cutPoint n cut + i)) := by
  show (tabulate k [n] f).rows (cutPoint n cut) (n - cutPoint n cut) = _
  have hcut := cutPoint_le n cut
  rw [rows_tabulate f (by omega)]

/-- The entries before a cut. -/
theorem leading_tabulate {n m : ℕ} (f : ℕ → 𝕜) (h : m ≤ n) :
    ((tabulate () [n] f).leading m : Except (Failure ℝ) _) = .ok (tabulate () [m] f) := by
  rw [leading_cutPoint, cutPoint_of_le h]

/-- The entries after a cut. -/
theorem trailing_tabulate {n m : ℕ} (f : ℕ → 𝕜) (h : m ≤ n) :
    ((tabulate () [n] f).trailing m : Except (Failure ℝ) _)
      = .ok (tabulate () [n - m] fun i => f (m + i)) := by
  rw [trailing_cutPoint, cutPoint_of_le h]

/-- Two vectors laid end to end are read in their joint kind. -/
theorem append_tabulate_cast {κ α R : Type} [Control R] [Kinds κ] [Entry α R κ] {k k' : κ} {m n : ℕ}
    (f g : ℕ → α) : ((tabulate k [m] f).append (tabulate k' [n] g) : Except (Failure R) _)
      = .ok (tabulate (Kinds.join k k') [m + n] fun i =>
          Entry.cast (Kinds.join k k') (if i < m then f i else g (i - m))) := by
  have hm : (tabulate k [m] f).size = m := by rw [size_tabulate, List.prod_singleton]
  have hn : (tabulate k' [n] g).size = n := by rw [size_tabulate, List.prod_singleton]
  show Except.ok (tabulate (Kinds.join k k')
    [(tabulate k [m] f).size + (tabulate k' [n] g).size] fun i => Entry.cast (Kinds.join k k')
      (if i < (tabulate k [m] f).size then (tabulate k [m] f).entry i
        else (tabulate k' [n] g).entry (i - (tabulate k [m] f).size))) = _
  rw [hm, hn]
  refine congrArg Except.ok (tabulate_congr _ _ ?_)
  intro i hi
  rw [List.prod_singleton] at hi
  by_cases h : i < m
  · rw [if_pos h, if_pos h, entry_tabulate _ _ _ (by rwa [List.prod_singleton])]
  · rw [if_neg h, if_neg h, entry_tabulate _ _ _ (by rw [List.prod_singleton]; omega)]

/-- The entries of joined vectors. -/
theorem append_tabulate {m n : ℕ} (f g : ℕ → 𝕜) :
    ((tabulate () [m] f).append (tabulate () [n] g) : Except (Failure ℝ) _)
      = .ok (tabulate () [m + n] fun i => if i < m then f i else g (i - m)) :=
  append_tabulate_cast f g

end Tensor

end PrimalDual
