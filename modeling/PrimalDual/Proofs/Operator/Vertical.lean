/-
  PrimalDual.Proofs.Operator.Vertical
  ───────────────────────────────────
  **THE VERTICAL STACK.**

  In exact arithmetic the stacked operator `[A; B]` is what a block matrix of
  two rows is:

      [A; B] x          A x and B x, laid end to end
      [A; B]ᴴ (u, v)    Aᴴ u + Bᴴ v

  whatever shapes the ranges have, as long as they are stated where they are
  not vectors.  The dual vector is cut `q` entries before its end, and the
  values are joined from the front; that the two agree is `adjoint_laid`, and
  everything about nested stacks and block matrices follows from it.
-/
import PrimalDual.Proofs.Coordinates.Flattened
import PrimalDual.Proofs.Operator.Nesting

namespace PrimalDual

open Tensor
open scoped InnerProduct

variable {𝕜 : Type} [RCLike 𝕜] {D S SA SB SC : List ℕ}

/-! ## §1. Tensors laid end to end. -/

/-- There is one kind in exact arithmetic, and nothing is rounded. -/
theorem coherent_exact (x y z : Tensor Unit 𝕜) : Coherent x y z where
  join := rfl
  first := ⟨fun _ _ => rfl, fun _ _ => rfl⟩
  last := ⟨fun _ _ => rfl, fun _ _ => rfl⟩

namespace Tensor

variable {u v y : Tensor Unit 𝕜}

theorem entry_laid_first {i : ℕ} (hi : i < u.size) : (laid u v).entry i = u.entry i := by
  rw [entry_laid (by omega), if_pos hi]
  rfl

theorem entry_laid_last {i : ℕ} (hi : i < v.size) :
    (laid u v).entry (u.size + i) = v.entry i := by
  rw [entry_laid (by omega), if_neg (by omega), Nat.add_sub_cancel_left]
  rfl

/-- The squares of the norms add up. -/
theorem sq_norm_laid (u v : Tensor Unit 𝕜) : ‖vec (laid u v).shape (laid u v)‖ ^ 2
    = ‖vec u.shape u‖ ^ 2 + ‖vec v.shape v‖ ^ 2 := by
  have hnorm : ∀ x : Tensor Unit 𝕜,
      ‖vec x.shape x‖ ^ 2 = ∑ i ∈ Finset.range x.size, ‖x.entry i‖ ^ 2 := by
    intro x
    rw [norm_eq_sqrt_sum, Real.sq_sqrt (Finset.sum_nonneg fun i _ => sq_nonneg _), ofVec_vec rfl,
      size_eq]
  rw [hnorm, hnorm, hnorm, size_laid, Finset.sum_range_add]
  refine congrArg₂ (· + ·) (Finset.sum_congr rfl ?_) (Finset.sum_congr rfl ?_)
  · intro i hi
    rw [entry_laid_first (Finset.mem_range.1 hi)]
  · intro i hi
    rw [entry_laid_last (Finset.mem_range.1 hi)]

/-- The blocks of tensors laid end to end. -/
theorem cut_laid (u v : Tensor Unit 𝕜) :
    ((laid u v).leading u.size : Except (Failure ℝ) _) = .ok u.flatten
      ∧ ((laid u v).trailing u.size : Except (Failure ℝ) _) = .ok v.flatten := by
  obtain ⟨a, b, ha, hb, hashape, hbshape, haentry, hbentry⟩ :=
    Operator.cut_vector (y := laid u v) (m := u.size) (n := v.size) rfl
  have hafirst : a = u.flatten := by
    refine ext_entry rfl hashape ?_
    intro i hi
    rw [size_of_vector hashape] at hi
    rw [haentry i hi, entry_laid_first hi]
    rfl
  have hblast : b = v.flatten := by
    refine ext_entry rfl hbshape ?_
    intro i hi
    rw [size_of_vector hbshape] at hi
    rw [hbentry i hi, entry_laid_last hi]
    rfl
  rw [ha, hb, hafirst, hblast]
  exact ⟨rfl, rfl⟩

/-- Every vector with enough entries is two tensors of given shapes, laid end to end. -/
theorem exists_laid {t : List ℕ} (hy : y.shape = [S.prod + t.prod]) :
    ∃ u v : Tensor Unit 𝕜, u.shape = S ∧ v.shape = t ∧ laid u v = y := by
  obtain ⟨a, b, -, -, hashape, hbshape, haentry, hbentry⟩ := Operator.cut_vector hy
  have hasize : a.size = S.prod := size_of_vector hashape
  have hbsize : b.size = t.prod := size_of_vector hbshape
  refine ⟨a.withShape S hasize.symm, b.withShape t hbsize.symm, rfl, rfl, ?_⟩
  show laid a b = y
  refine ext_entry rfl ?_ ?_
  · rw [shape_laid, hasize, hbsize, hy]
  · intro i hi
    rw [size_laid] at hi
    by_cases hfirst : i < a.size
    · rw [entry_laid_first hfirst, haentry i (hasize ▸ hfirst)]
    · obtain ⟨j, rfl⟩ : ∃ j, i = a.size + j := ⟨i - a.size, by omega⟩
      have hj : j < b.size := by omega
      rw [entry_laid_last hj, hbentry j (hbsize ▸ hj), hasize]

end Tensor

/-! ## §2. Stated ranges. -/

namespace Operator

variable {A B C K AB BC left right : Operator (Except (Failure ℝ)) ℝ Unit 𝕜}
variable {shape shapeA shapeB shapeC : Option (List ℤ)} {u v w : Tensor Unit 𝕜}

/-- The shape `S` is stated; it may be left out if it is that of a vector. -/
def StatedAs (S : List ℕ) : Option (List ℤ) → Prop
  | some shape => shape = S.map Int.ofNat
  | none => ∃ n, S = [n]

theorem statedAs_vector (n : ℕ) : StatedAs [n] none := ⟨n, rfl⟩

omit [RCLike 𝕜] in
/-- The stack is built if the lower block has the entries of its range. -/
theorem stack_returns (A B : Operator (Except (Failure ℝ)) ℝ Unit 𝕜)
    (hB : StatedAs SB shapeB) (shapeA : Option (List ℤ)) {q : ℕ} (hq : SB.prod = q) :
    ∃ K, stack A B (.whole q) shapeA shapeB = .ok K := by
  have hsign : ¬ (q : ℤ) < 0 := by omega
  unfold stack
  cases shapeB with
  | none => exact ⟨stacked (A.inShape shapeA) B (.whole q), by simp [hsign]⟩
  | some shape =>
    obtain rfl : shape = SB.map Int.ofNat := hB
    refine ⟨stacked (A.inShape shapeA) (B.inShape (some (SB.map Int.ofNat))) (.whole q), ?_⟩
    simp [hsign, prod_map_ofNat, hq]

/-- Read in its stated shape, an operator takes vectors back as it takes tensors. -/
theorem adjoint_inShape_flatten (hS : StatedAs S shape) (hu : u.shape = S) :
    (A.inShape shape).adjoint u.flatten = A.adjoint u := by
  cases shape with
  | none =>
    obtain ⟨n, rfl⟩ := hS
    rw [flatten_of_vector hu]
    rfl
  | some shape =>
    obtain rfl : shape = S.map Int.ofNat := hS
    have hread : (u.flatten.reshape (S.map Int.ofNat) : Except (Failure ℝ) _) = .ok u :=
      Flattens.reshape ⟨hu, rfl⟩
    show (u.flatten.reshape (S.map Int.ofNat) : Except (Failure ℝ) _) >>= A.adjoint = _
    rw [hread]
    rfl

/-! ## §3. The adjoint of a stack. -/

/-- **The adjoint of a stack adds up those of its blocks.** -/
theorem adjoint_laid (hA : StatedAs SA shapeA) (hB : StatedAs SB shapeB) {q : ℕ}
    (hq : SB.prod = q) (hK : stack A B (.whole q) shapeA shapeB = .ok K) (hu : u.shape = SA)
    (hv : v.shape = SB) :
    K.adjoint (laid u v) = A.adjoint u >>= fun a => B.adjoint v >>= fun b => a.add b := by
  cases stack_ok hK
  -- The cut is made from the end, and falls where `u` ends.
  have hcut : (cutBefore (laid u v).size (.whole q) : Except (Failure ℝ) ℤ)
      = .ok (u.size : ℤ) := by
    refine congrArg Except.ok ?_
    rw [size_laid, size_eq v, hv, hq]
    push_cast
    ring
  obtain ⟨hfirst, hlast⟩ := cut_laid u v
  show ((cutBefore (laid u v).size (.whole q) : Except (Failure ℝ) ℤ) >>= fun cut =>
    ((laid u v).leading cut : Except (Failure ℝ) _) >>= fun y₁ =>
    (A.inShape shapeA).adjoint y₁ >>= fun a =>
    ((laid u v).trailing cut : Except (Failure ℝ) _) >>= fun y₂ =>
    (B.inShape shapeB).adjoint y₂ >>= fun b => a.add b) = _
  rw [hcut]
  show (((laid u v).leading u.size : Except (Failure ℝ) _) >>= fun y₁ =>
    (A.inShape shapeA).adjoint y₁ >>= fun a =>
    ((laid u v).trailing u.size : Except (Failure ℝ) _) >>= fun y₂ =>
    (B.inShape shapeB).adjoint y₂ >>= fun b => a.add b) = _
  rw [hfirst, hlast]
  show ((A.inShape shapeA).adjoint u.flatten >>= fun a =>
    (B.inShape shapeB).adjoint v.flatten >>= fun b => a.add b) = _
  rw [adjoint_inShape_flatten hA hu, adjoint_inShape_flatten hB hv]

/-- **Both ways to stack three operators have the same adjoint.** -/
theorem adjoint_nested (hA : A.HasShapes D SA) (hB : B.HasShapes D SB) (hC : C.HasShapes D SC)
    (hshapeA : StatedAs SA shapeA) (hshapeB : StatedAs SB shapeB) (hshapeC : StatedAs SC shapeC)
    (hAB : stack A B (.whole SB.prod) shapeA shapeB = .ok AB)
    (hBC : stack B C (.whole SC.prod) shapeB shapeC = .ok BC)
    (hleft : stack AB C (.whole SC.prod) none shapeC = .ok left)
    (hright : stack A BC (.whole (SB.prod + SC.prod : ℕ)) shapeA none = .ok right)
    {y : Tensor Unit 𝕜} (hy : y.shape = [SA.prod + SB.prod + SC.prod]) :
    left.adjoint y = right.adjoint y := by
  have hsum : ([SA.prod + SB.prod].prod : ℕ) = SA.prod + SB.prod := List.prod_singleton
  obtain ⟨uv, w, huv, hw, rfl⟩ := exists_laid (S := [SA.prod + SB.prod]) (hsum ▸ hy)
  obtain ⟨u, v, hu, hv, rfl⟩ := exists_laid huv
  have hvw : (laid v w).shape = [SB.prod + SC.prod] := by
    rw [shape_laid, size_eq, size_eq, hv, hw]
  have hone : left.adjoint (laid (laid u v) w) = _ :=
    adjoint_laid (statedAs_vector _) hshapeC rfl hleft huv hw
  have htwo : right.adjoint (laid u (laid v w)) = _ :=
    adjoint_laid hshapeA (statedAs_vector _) List.prod_singleton hright hu hvw
  rw [hone, laid_laid (coherent_exact _ _ _), htwo, adjoint_laid hshapeA hshapeB rfl hAB hu hv,
    adjoint_laid hshapeB hshapeC rfl hBC hv hw]
  -- The first adjoint that fails is the same one, and if none does the sums are regrouped.
  cases ha : A.adjoint u with
  | error e => rfl
  | ok a =>
    cases hb : B.adjoint v with
    | error e => rfl
    | ok b =>
      have hashape := hA.adjoint u a hu ha
      obtain ⟨ab, hab, habshape, -⟩ := add_of_shape (hashape.trans (hB.adjoint v b hv hb).symm)
      cases hc : C.adjoint w with
      | error e =>
        show ((a.add b : Except (Failure ℝ) _) >>= fun _ => .error e) = _
        rw [hab]
        rfl
      | ok c =>
        have hcshape := hC.adjoint w c hw hc
        obtain ⟨abc, habc, -, -⟩ := add_of_shape ((habshape.trans hashape).trans hcshape.symm)
        obtain ⟨bc, hbc, habc'⟩ := add_assoc_ok hab habc
        show ((a.add b : Except (Failure ℝ) _) >>= fun ab => ab.add c)
          = (b.add c : Except (Failure ℝ) _) >>= fun bc => a.add bc
        rw [hab, hbc]
        exact habc.trans habc'.symm

/-! ## §4. Stacks of linear maps. -/

variable {T : Space 𝕜 D →L[𝕜] Space 𝕜 SA} {U : Space 𝕜 D →L[𝕜] Space 𝕜 SB}

/-- Read in its stated shape, an operator acts as before, followed by reading a vector. -/
theorem acts_inShape (hA : A.Acts T) (hS : StatedAs SA shape) :
    (A.inShape shape).Acts ((vectorOf SA).toContinuousLinearMap ∘L T) := by
  cases shape with
  | none =>
    -- Only a vector may do without a stated shape, and as a vector it is as it was.
    obtain ⟨n, rfl⟩ := hS
    have hvector : ∀ z : Space 𝕜 [n],
        ofVec [[n].prod] (vectorOf [n] z) = ofVec [n] z := by
      intro z
      rw [← PrimalDual.flatten_vector n z, flatten_ofVec (size_vector [n])]
      rfl
    refine ⟨fun x => ?_, fun y => ?_⟩
    · exact (hA.forward x).trans (congrArg Except.ok (hvector (T x)).symm)
    · obtain ⟨z, rfl⟩ := (flatten (size_vector [n]) : Space 𝕜 [n] ≃ₗᵢ[𝕜] _).surjective y
      have hback := adjoint_isometry_comp T (vectorOf [n]) z
      show A.adjoint (ofVec [[n].prod] (vectorOf [n] z)) = _
      rw [hvector, hA.adjoint]
      exact congrArg (fun v => Except.ok (ofVec D v)) hback.symm
  | some shape =>
    obtain rfl : shape = SA.map Int.ofNat := hS
    exact acts_vectorOf hA

/-- The norm of a stack is at most that of the vector of the norms of its blocks. -/
theorem sq_norm_column_le {m q : ℕ} (T : Space 𝕜 D →L[𝕜] Space 𝕜 [m])
    (U : Space 𝕜 D →L[𝕜] Space 𝕜 [q]) : ‖column T U‖ ^ 2 ≤ ‖T‖ ^ 2 + ‖U‖ ^ 2 := by
  have hnonneg : 0 ≤ ‖T‖ ^ 2 + ‖U‖ ^ 2 := by positivity
  have hbound : ‖column T U‖ ≤ √(‖T‖ ^ 2 + ‖U‖ ^ 2) := by
    apply ContinuousLinearMap.opNorm_le_bound _ (Real.sqrt_nonneg _)
    intro x
    have hT : ‖T x‖ ^ 2 ≤ (‖T‖ * ‖x‖) ^ 2 := pow_le_pow_left₀ (norm_nonneg _) (T.le_opNorm x) 2
    have hU : ‖U x‖ ^ 2 ≤ (‖U‖ * ‖x‖) ^ 2 := pow_le_pow_left₀ (norm_nonneg _) (U.le_opNorm x) 2
    rw [column_apply, norm_join]
    calc √(‖T x‖ ^ 2 + ‖U x‖ ^ 2)
        ≤ √((‖T‖ ^ 2 + ‖U‖ ^ 2) * ‖x‖ ^ 2) := by
          refine Real.sqrt_le_sqrt ?_
          linarith [mul_pow ‖T‖ ‖x‖ 2, mul_pow ‖U‖ ‖x‖ 2]
      _ = √(‖T‖ ^ 2 + ‖U‖ ^ 2) * ‖x‖ := by
          rw [Real.sqrt_mul hnonneg, Real.sqrt_sq (norm_nonneg x)]
  calc ‖column T U‖ ^ 2 ≤ √(‖T‖ ^ 2 + ‖U‖ ^ 2) ^ 2 :=
        pow_le_pow_left₀ (norm_nonneg _) hbound 2
    _ = ‖T‖ ^ 2 + ‖U‖ ^ 2 := Real.sq_sqrt hnonneg

/-- **A stack of linear maps is a linear map of bounded norm.** -/
theorem acts_stack (hA : A.Acts T) (hB : B.Acts U) (hshapeA : StatedAs SA shapeA)
    (hshapeB : StatedAs SB shapeB) (hK : stack A B (.whole SB.prod) shapeA shapeB = .ok K) :
    ∃ V : Space 𝕜 D →L[𝕜] Space 𝕜 [SA.prod + SB.prod],
      K.Acts V ∧ ‖V‖ ^ 2 ≤ ‖T‖ ^ 2 + ‖U‖ ^ 2 := by
  cases stack_ok hK
  refine ⟨column ((vectorOf SA).toContinuousLinearMap ∘L T)
    ((vectorOf SB).toContinuousLinearMap ∘L U),
    acts_stacked (acts_inShape hA hshapeA) (acts_inShape hB hshapeB), ?_⟩
  refine (sq_norm_column_le _ _).trans_eq ?_
  rw [LinearIsometry.norm_toContinuousLinearMap_comp, LinearIsometry.norm_toContinuousLinearMap_comp]

end Operator

/-! ## §5. Stacks of matrices. -/

section Matrices

variable {M N x y : Tensor Unit 𝕜} {m n q : ℕ} {t : List ℕ}

namespace Tensor

/-- The matrix with the rows of the first matrix and below them those of the second. -/
noncomputable def above (M N : Tensor Unit 𝕜) : Tensor Unit 𝕜 :=
  tabulate () ((M.shape.headD 0 + N.shape.headD 0) :: M.shape.tail) fun i => (laid M N).entry i

theorem shape_above (hM : M.shape = [m, n]) (hN : N.shape = [q, n]) :
    (above M N).shape = [m + q, n] := by
  unfold above
  rw [shape_tabulate, hM, hN]
  rfl

/-- A row and a place in it, in a block of rows of length `n`. -/
theorem exists_row {i : ℕ} (h : i < m * n) : ∃ r c, r < m ∧ c < n ∧ i = r * n + c := by
  rw [← Nat.one_mul m] at h
  obtain ⟨x, r, c, hx, hr, hc, rfl⟩ := exists_position h
  obtain rfl : x = 0 := by omega
  exact ⟨r, c, hr, hc, by rw [Nat.zero_mul, Nat.zero_add]⟩

/-- The rows of the first tensor stand first, and behind them those of the second. -/
theorem entry_laid_row {p c : ℕ} (hx : x.size = m * p) (hy : y.size = q * p) (hc : c < p) :
    (∀ r < m, (laid x y).entry (r * p + c) = x.entry (r * p + c))
      ∧ ∀ r < q, (laid x y).entry ((m + r) * p + c) = y.entry (r * p + c) := by
  constructor
  · intro r hr
    rw [entry_laid_first (hx ▸ row_lt hr hc)]
  · intro r hr
    have hplace : (m + r) * p + c = x.size + (r * p + c) := by
      rw [hx, Nat.add_mul, Nat.add_assoc]
    rw [hplace, entry_laid_last (hy ▸ row_lt hr hc)]

theorem entry_above (hM : M.shape = [m, n]) (hN : N.shape = [q, n]) {j : ℕ} (hj : j < n) :
    (∀ r < m, (above M N).entry (r * n + j) = M.entry (r * n + j))
      ∧ ∀ r < q, (above M N).entry ((m + r) * n + j) = N.entry (r * n + j) := by
  have hsize : ∀ {H : Tensor Unit 𝕜} {k : ℕ}, H.shape = [k, n] → H.size = k * n := by
    intro H k hH
    rw [size_of_cons hH, List.prod_singleton]
  have hread : ∀ i < (m + q) * n, (above M N).entry i = (laid M N).entry i := by
    intro i hi
    refine entry_tabulate _ _ _ ?_
    rw [hM, hN]
    exact hi.trans_eq (congrArg ((m + q) * ·) List.prod_singleton.symm)
  obtain ⟨hfirst, hlast⟩ := entry_laid_row (hsize hM) (hsize hN) hj
  constructor
  · intro r hr
    rw [hread _ (row_lt (by omega) hj), hfirst r hr]
  · intro r hr
    rw [hread _ (row_lt (by omega) hj), hlast r hr]

/-- A vector, or a matrix, is one batch of rows. -/
theorem rowsOf_cons (n : ℕ) (ht : t.length ≤ 1) : RowsOf (n :: t) [] n t.prod
    ∧ ∀ m, productShape [] m t.prod 2 (n :: t).length = m :: t := by
  match t with
  | [] => exact ⟨rfl, fun _ => rfl⟩
  | [p] =>
    rw [List.prod_singleton]
    exact ⟨rfl, fun _ => rfl⟩

/-- The entries of a product, by row and column. -/
theorem multiply_of_shape (hM : M.shape = [m, n]) (ht : t.length ≤ 1) (hx : x.shape = n :: t)
    (o : Bool) : ∃ u, (M.multiply o x : Except (Failure ℝ) _) = .ok u ∧ u.shape = m :: t
      ∧ ∀ r < m, ∀ c < t.prod, u.entry (r * t.prod + c)
        = ∑ j ∈ Finset.range n, M.entry (r * n + j) * x.entry (j * t.prod + c) := by
  obtain ⟨hrows, hproduct⟩ := rowsOf_cons n ht
  rw [← hx] at hrows
  obtain ⟨u, hu, hushape, hentry⟩ := multiply_of_rows hM hrows o
  refine ⟨u, hu, ?_, ?_⟩
  · rw [hushape, hx, hproduct]
  · intro r hr c hc
    have hplace : ∀ k, r * k + c = (0 * m + r) * k + c := by
      intro k
      rw [Nat.zero_mul, Nat.zero_add]
    have hlt : r * t.prod + c < [].prod * m * t.prod := by
      rw [List.prod_nil, Nat.one_mul]
      exact row_lt hr hc
    rw [hentry _ hlt, row_div hc, Nat.mod_eq_of_lt hr]
    apply Finset.sum_congr rfl
    intro j _
    rw [hplace, across_position hr hc, Nat.zero_mul, Nat.zero_add]

end Tensor

namespace Operator

theorem forward_matrix (hM : M.shape = [m, n]) (ht : t.length ≤ 1) (hx : x.shape = n :: t) :
    ∃ u, (matrix M : Operator (Except (Failure ℝ)) ℝ Unit 𝕜).forward x = .ok u ∧ u.shape = m :: t
      ∧ ∀ r < m, ∀ c < t.prod, u.entry (r * t.prod + c)
        = ∑ j ∈ Finset.range n, M.entry (r * n + j) * x.entry (j * t.prod + c) :=
  multiply_of_shape hM ht hx true

theorem adjoint_matrix_entry (hM : M.shape = [m, n]) (ht : t.length ≤ 1) (hy : y.shape = m :: t) :
    ∃ v, (matrix M : Operator (Except (Failure ℝ)) ℝ Unit 𝕜).adjoint y = .ok v ∧ v.shape = n :: t
      ∧ ∀ j < n, ∀ c < t.prod, v.entry (j * t.prod + c)
        = ∑ r ∈ Finset.range m, star (M.entry (r * n + j)) * y.entry (r * t.prod + c) := by
  obtain ⟨H, hH, hHshape, hHentry⟩ := adjointMatrix_ok hM
  obtain ⟨v, hv, hvshape, hventry⟩ := multiply_of_shape hHshape ht hy M.columnsInOrder
  refine ⟨v, bind_eq_ok.2 ⟨H, hH, hv⟩, hvshape, ?_⟩
  intro j hj c hc
  rw [hventry j hj c hc]
  apply Finset.sum_congr rfl
  intro r hr
  rw [hHentry j hj r (Finset.mem_range.1 hr)]

/-- The values of two matrices, one after the other, are those of the matrix of all rows. -/
theorem forward_above (hM : M.shape = [m, n]) (hN : N.shape = [q, n]) (ht : t.length ≤ 1)
    (hx : x.shape = n :: t) : ∃ u v w,
      (matrix M : Operator (Except (Failure ℝ)) ℝ Unit 𝕜).forward x = .ok u
      ∧ (matrix N : Operator (Except (Failure ℝ)) ℝ Unit 𝕜).forward x = .ok v
      ∧ (matrix (above M N) : Operator (Except (Failure ℝ)) ℝ Unit 𝕜).forward x = .ok w
      ∧ w.shape = (m + q) :: t ∧ laid u v = w.flatten := by
  obtain ⟨u, hu, hushape, huentry⟩ := forward_matrix hM ht hx
  obtain ⟨v, hv, hvshape, hventry⟩ := forward_matrix hN ht hx
  obtain ⟨w, hw, hwshape, hwentry⟩ := forward_matrix (shape_above hM hN) ht hx
  have husize : u.size = m * t.prod := size_of_cons hushape
  have hvsize : v.size = q * t.prod := size_of_cons hvshape
  have hsize : (laid u v).size = (m + q) * t.prod := by rw [size_laid, husize, hvsize, Nat.add_mul]
  refine ⟨u, v, w, hu, hv, hw, hwshape, ext_entry rfl ?_ ?_⟩
  · rw [shape_flatten, size_of_cons hwshape, ← hsize, shape_laid, size_laid]
  · intro i hi
    obtain ⟨r, c, hr, hc, rfl⟩ := exists_row (hi.trans_eq hsize)
    obtain ⟨hfirst, hlast⟩ := entry_laid_row husize hvsize hc
    show _ = w.entry (r * t.prod + c)
    rw [hwentry r hr c hc]
    -- The row belongs to one of the two matrices.
    by_cases hrow : r < m
    · rw [hfirst r hrow, huentry r hrow c hc]
      apply Finset.sum_congr rfl
      intro j hj
      rw [(entry_above hM hN (Finset.mem_range.1 hj)).1 r hrow]
    · obtain ⟨k, rfl⟩ : ∃ k, r = m + k := ⟨r - m, by omega⟩
      have hk : k < q := by omega
      rw [hlast k hk, hventry k hk c hc]
      apply Finset.sum_congr rfl
      intro j hj
      rw [(entry_above hM hN (Finset.mem_range.1 hj)).2 k hk]

/-- The adjoint of the matrix of all rows adds up those of its two parts. -/
theorem adjoint_above (hM : M.shape = [m, n]) (hN : N.shape = [q, n]) (ht : t.length ≤ 1)
    {u v : Tensor Unit 𝕜} (hu : u.shape = m :: t) (hv : v.shape = q :: t)
    (hy : y.shape = (m + q) :: t) (huv : laid u v = y.flatten) :
    ((matrix M : Operator (Except (Failure ℝ)) ℝ Unit 𝕜).adjoint u >>= fun a =>
        (matrix N : Operator (Except (Failure ℝ)) ℝ Unit 𝕜).adjoint v >>= fun b => a.add b)
      = (matrix (above M N) : Operator (Except (Failure ℝ)) ℝ Unit 𝕜).adjoint y := by
  obtain ⟨a, ha, hashape, haentry⟩ := adjoint_matrix_entry hM ht hu
  obtain ⟨b, hb, hbshape, hbentry⟩ := adjoint_matrix_entry hN ht hv
  obtain ⟨c, hc, hcshape, hcentry⟩ := adjoint_matrix_entry (shape_above hM hN) ht hy
  obtain ⟨z, hz, hzshape, hzentry⟩ := add_of_shape (hashape.trans hbshape.symm)
  have hasize : a.size = n * t.prod := size_of_cons hashape
  have hread : ∀ i, y.entry i = (laid u v).entry i := by
    intro i
    rw [huv]
    rfl
  rw [ha, hc]
  show ((matrix N).adjoint v >>= fun b => a.add b) = _
  rw [hb]
  refine hz.trans (congrArg Except.ok (ext_entry rfl ?_ ?_))
  · rw [hzshape, hashape, hcshape]
  · intro i hi
    have hia : i < a.size := by rwa [size_eq, hzshape, ← size_eq] at hi
    obtain ⟨j, k, hj, hk, rfl⟩ := exists_row (hia.trans_eq hasize)
    obtain ⟨hfirst, hlast⟩ := entry_laid_row (size_of_cons hu) (size_of_cons hv) hk
    -- The sum over all rows is that over the rows of `M` and that over the rows of `N`.
    rw [hzentry _ hia, haentry j hj k hk, hbentry j hj k hk, hcentry j hj k hk,
      Finset.sum_range_add]
    refine congrArg₂ (· + ·) (Finset.sum_congr rfl ?_)
      (Finset.sum_congr rfl ?_)
    · intro r hr
      have hrow := Finset.mem_range.1 hr
      rw [(entry_above hM hN hj).1 r hrow, hread, hfirst r hrow]
    · intro r hr
      have hrow := Finset.mem_range.1 hr
      rw [(entry_above hM hN hj).2 r hrow, hread, hlast r hrow]

/-- **A stack of two matrices is the matrix of all rows.**  The values of a vector are vectors;
those of a matrix are read as vectors. -/
theorem stack_matrices (hM : M.shape = [m, n]) (hN : N.shape = [q, n]) (ht : t.length ≤ 1)
    {shapeM shapeN : Option (List ℤ)} (hshapeM : StatedAs (m :: t) shapeM)
    (hshapeN : StatedAs (q :: t) shapeN) :
    ∃ opM opN K L : Operator (Except (Failure ℝ)) ℝ Unit 𝕜,
      ofMatrix M = (.ok opM : Except (Failure ℝ) _) ∧ ofMatrix N = (.ok opN : Except (Failure ℝ) _)
      ∧ stack opM opN (.whole ((q :: t).prod : ℕ)) shapeM shapeN = .ok K
      ∧ ofMatrix (above M N) = (.ok L : Except (Failure ℝ) _)
      ∧ (∀ x, x.shape = n :: t → K.forward x = Tensor.flatten <$> L.forward x)
      ∧ (∀ y, y.shape = (m + q) :: t → K.adjoint y.flatten = L.adjoint y)
      ∧ (t = [] → (∀ x, x.shape = [n] → K.forward x = L.forward x)
        ∧ ∀ y, y.shape = [m + q] → K.adjoint y = L.adjoint y) := by
  have hbuild : ∀ {H : Tensor Unit 𝕜} {k : ℕ}, H.shape = [k, n] → (ofMatrix H
      : Except (Failure ℝ) (Operator (Except (Failure ℝ)) ℝ Unit 𝕜)) = .ok (matrix H) := by
    intro H k hH
    unfold ofMatrix axes
    rw [hH]
    rfl
  obtain ⟨K, hK⟩ := stack_returns (matrix M) (matrix N) hshapeN shapeM rfl
  have hforward : ∀ x, x.shape = n :: t → ∃ w : Tensor Unit 𝕜,
      (matrix (above M N) : Operator (Except (Failure ℝ)) ℝ Unit 𝕜).forward x = .ok w
        ∧ w.shape = (m + q) :: t ∧ K.forward x = .ok w.flatten := by
    intro x hx
    obtain ⟨u, v, w, hu, hv, hw, hwshape, hlaid⟩ := forward_above hM hN ht hx
    refine ⟨w, hw, hwshape, ?_⟩
    rw [forward_stack hK, ← hlaid]
    apply bind_returns hu
    apply bind_returns hv
    rfl
  -- A vector of all entries is one of the rows of `M` with one of the rows of `N` behind it.
  have hadjoint : ∀ y, y.shape = (m + q) :: t → K.adjoint y.flatten
      = (matrix (above M N) : Operator (Except (Failure ℝ)) ℝ Unit 𝕜).adjoint y := by
    intro y hy
    have hsize : y.flatten.shape = [(m :: t).prod + (q :: t).prod] := by
      rw [shape_flatten, size_of_cons hy, List.prod_cons, List.prod_cons, Nat.add_mul]
    obtain ⟨u, v, hu, hv, huv⟩ := exists_laid hsize
    rw [← huv, adjoint_laid hshapeM hshapeN rfl hK hu hv]
    exact adjoint_above hM hN ht hu hv hy huv
  refine ⟨matrix M, matrix N, K, matrix (above M N), hbuild hM, hbuild hN, hK,
    hbuild (shape_above hM hN), ?_, hadjoint, ?_⟩
  · intro x hx
    obtain ⟨w, hw, -, hKx⟩ := hforward x hx
    rw [hw, hKx]
    rfl
  · rintro rfl
    constructor
    · intro x hx
      obtain ⟨w, hw, hwshape, hKx⟩ := hforward x hx
      rw [hw, hKx, flatten_of_vector hwshape]
    · intro y hy
      rw [← hadjoint y hy, flatten_of_vector hy]

end Operator

end Matrices

/-! ## §6. The vertical stack. -/

namespace Operator

variable {A B C : Operator (Except (Failure ℝ)) ℝ Unit 𝕜}
variable {shapeA shapeB shapeC : Option (List ℤ)}

/-- A tensor less its rotation has its shape. -/
theorem shape_of_difference {x u : Tensor Unit 𝕜} {t axis : ℤ} (hu : (x.rotate t axis
    >>= fun w => w.sub x : Except (Failure ℝ) (Tensor Unit 𝕜)) = .ok u) : u.shape = x.shape := by
  obtain ⟨w, hw, hu⟩ := bind_eq_ok.1 hu
  have hwshape : w.shape = x.shape := (dot_rotate hw rfl).1
  obtain ⟨z, hz, hzshape, -⟩ := sub_of_shape hwshape
  cases hu.symm.trans hz
  exact hzshape.trans hwshape

theorem difference_hasShapes (axis : ℤ) :
    (difference axis : Operator (Except (Failure ℝ)) ℝ Unit 𝕜).HasShapes D D where
  forward _ _ hx hu := (shape_of_difference hu).trans hx
  adjoint _ _ hy hv := (shape_of_difference hv).trans hy

/-- **The vertical stack.**  Of operators on the tensors of shape `D`, with ranges of the shapes
`SA`, `SB` and `SC` that are stated where they are not vectors, all stacks can be built.

* `[A; B] x` is `A x` with `B x` laid behind it, so the squares of their norms add up, and the norm
  of a stack of linear maps is bounded by the norms of its blocks.
* Its adjoint takes `u` and `v`, laid end to end, to `Aᴴ u + Bᴴ v`.
* `[[A; B]; C]` and `[A; [B; C]]` have the same values for every tensor and the same adjoint for
  every vector of all their entries.  The values are the same in machine arithmetic, too, if they
  are of one kind, or reals and complex numbers of any kinds.
* For two matrices both directions are those of the matrix of all rows. -/
theorem stack_vertical (hA : A.HasShapes D SA) (hB : B.HasShapes D SB) (hC : C.HasShapes D SC)
    (hshapeA : StatedAs SA shapeA) (hshapeB : StatedAs SB shapeB)
    (hshapeC : StatedAs SC shapeC) :
    (∃ AB BC left right : Operator (Except (Failure ℝ)) ℝ Unit 𝕜,
      stack A B (.whole SB.prod) shapeA shapeB = .ok AB
      ∧ stack B C (.whole SC.prod) shapeB shapeC = .ok BC
      ∧ stack AB C (.whole SC.prod) none shapeC = .ok left
      ∧ stack A BC (.whole (SB.prod + SC.prod : ℕ)) shapeA none = .ok right
      ∧ (∀ x, AB.forward x = A.forward x >>= fun u => B.forward x >>= fun v => .ok (laid u v))
      ∧ (∀ x u v, A.forward x = .ok u → B.forward x = .ok v →
          ∃ w, AB.forward x = .ok w ∧ w.shape = [u.size + v.size]
            ∧ ‖vec w.shape w‖ ^ 2 = ‖vec u.shape u‖ ^ 2 + ‖vec v.shape v‖ ^ 2)
      ∧ (∀ (T : Space 𝕜 D →L[𝕜] Space 𝕜 SA) (U : Space 𝕜 D →L[𝕜] Space 𝕜 SB),
          A.Acts T → B.Acts U → ∃ V : Space 𝕜 D →L[𝕜] Space 𝕜 [SA.prod + SB.prod],
            AB.Acts V ∧ ‖V‖ ^ 2 ≤ ‖T‖ ^ 2 + ‖U‖ ^ 2)
      ∧ (∀ u v, u.shape = SA → v.shape = SB → AB.adjoint (laid u v)
          = A.adjoint u >>= fun a => B.adjoint v >>= fun b => a.add b)
      ∧ (∀ x, left.forward x = right.forward x)
      ∧ (∀ y, y.shape = [SA.prod + SB.prod + SC.prod] → left.adjoint y = right.adjoint y))
    ∧ (∀ (A B C : Operator (Except (Failure Float)) Float MachineKind Number) x,
        (∀ u v w, A.forward x = .ok u → B.forward x = .ok v → C.forward x = .ok w →
          (u.kind = v.kind ∧ v.kind = w.kind) ∨ (u.Floats ∧ v.Floats ∧ w.Floats)) →
        NestsAt A B C x)
    ∧ (∀ (M N : Tensor Unit 𝕜) (m n q : ℕ) (t : List ℕ) (shapeM shapeN : Option (List ℤ)),
        M.shape = [m, n] → N.shape = [q, n] → t.length ≤ 1 →
        StatedAs (m :: t) shapeM → StatedAs (q :: t) shapeN →
        ∃ opM opN K L : Operator (Except (Failure ℝ)) ℝ Unit 𝕜,
          ofMatrix M = (.ok opM : Except (Failure ℝ) _)
          ∧ ofMatrix N = (.ok opN : Except (Failure ℝ) _)
          ∧ stack opM opN (.whole ((q :: t).prod : ℕ)) shapeM shapeN = .ok K
          ∧ ofMatrix (above M N) = (.ok L : Except (Failure ℝ) _)
          ∧ (∀ x, x.shape = n :: t → K.forward x = Tensor.flatten <$> L.forward x)
          ∧ (∀ y, y.shape = (m + q) :: t → K.adjoint y.flatten = L.adjoint y)
          ∧ (t = [] → (∀ x, x.shape = [n] → K.forward x = L.forward x)
            ∧ ∀ y, y.shape = [m + q] → K.adjoint y = L.adjoint y)) := by
  refine ⟨?_, fun A B C x hkinds => nestsAt_machine hkinds,
    fun M N m n q t shapeM shapeN hM hN ht hshapeM hshapeN =>
      stack_matrices hM hN ht hshapeM hshapeN⟩
  obtain ⟨AB, hAB⟩ := stack_returns A B hshapeB shapeA rfl
  obtain ⟨BC, hBC⟩ := stack_returns B C hshapeC shapeB rfl
  obtain ⟨left, hleft⟩ := stack_returns AB C hshapeC none rfl
  obtain ⟨right, hright⟩ := stack_returns A BC (statedAs_vector (SB.prod + SC.prod)) shapeA
    List.prod_singleton
  refine ⟨AB, BC, left, right, hAB, hBC, hleft, hright, forward_stack hAB, ?_, ?_, ?_, ?_, ?_⟩
  · intro x u v hu hv
    refine ⟨laid u v, ?_, rfl, sq_norm_laid u v⟩
    rw [forward_stack hAB]
    apply bind_returns hu
    apply bind_returns hv
    rfl
  · intro T U hT hU
    exact acts_stack hT hU hshapeA hshapeB hAB
  · intro u v hu hv
    exact adjoint_laid hshapeA hshapeB rfl hAB hu hv
  · intro x
    exact forward_nested (fun _ _ _ _ _ _ => coherent_exact _ _ _) _ _ _ _ _ _ _ _ _ _
      hAB hBC hleft hright
  · intro y hy
    exact adjoint_nested hA hB hC hshapeA hshapeB hshapeC hAB hBC hleft hright hy

/-- An image, its differences along the rows, and the image once more. -/
theorem stack_vertical_image : ∃ AB BC left right : Operator (Except (Failure ℝ)) ℝ Unit ℝ,
    stack identity (difference (-1)) (.whole 4) (some [2, 2]) (some [2, 2]) = .ok AB
    ∧ stack (difference (-1)) identity (.whole 4) (some [2, 2]) (some [2, 2]) = .ok BC
    ∧ stack AB identity (.whole 4) none (some [2, 2]) = .ok left
    ∧ stack identity BC (.whole 8) (some [2, 2]) none = .ok right
    ∧ (∀ x, left.forward x = right.forward x)
    ∧ (∀ y, y.shape = [12] → left.adjoint y = right.adjoint y) := by
  have himage : StatedAs [2, 2] (some [2, 2]) := rfl
  have hidentity : (identity : Operator (Except (Failure ℝ)) ℝ Unit ℝ).HasShapes [2, 2] [2, 2] :=
    identity_hasShapes
  have hdifference : (difference (-1)
      : Operator (Except (Failure ℝ)) ℝ Unit ℝ).HasShapes [2, 2] [2, 2] := difference_hasShapes (-1)
  obtain ⟨⟨AB, BC, left, right, hAB, hBC, hleft, hright, -, -, -, -, hforward, hadjoint⟩, -⟩ :=
    stack_vertical hidentity hdifference hidentity himage himage himage
  exact ⟨AB, BC, left, right, hAB, hBC, hleft, hright, hforward, hadjoint⟩

end Operator

end PrimalDual
