/-
  PrimalDual.Proofs.Exact.Space
  ─────────────────────────────
  **TENSORS OF ONE SHAPE AS A EUCLIDEAN SPACE.**

  In exact arithmetic the tensors of a shape `s` are the vectors of
  `Space 𝕜 s`, listed in row-major order:

      ofVec s v      the tensor that holds a vector
      vec s x        the vector that a tensor holds

  `vec` and `ofVec` are inverse to each other, and each operation of the
  solver on tensors of one shape is the operation of the vector space
  (`add_ofVec`, `scale_ofVec`, `normValue_ofVec`, …).
-/
import PrimalDual.Proofs.Exact.Arithmetic
import Mathlib.Analysis.InnerProductSpace.PiL2

namespace PrimalDual

/-- The Euclidean space of the tensors of a shape. -/
abbrev Space (𝕜 : Type) (s : List ℕ) : Type := EuclideanSpace 𝕜 (Fin s.prod)

/-- The one proof on which linear isometries can be inverted. -/
instance (priority := high) Exact.id_inverse {𝕜 : Type} [RCLike 𝕜] :
    RingHomInvPair (RingHom.id 𝕜) (RingHom.id 𝕜) := RingHomInvPair.ids

/-- The one proof on which linear maps are composed. -/
instance (priority := high) Exact.id_composite {𝕜 : Type} [RCLike 𝕜] :
    RingHomCompTriple (RingHom.id 𝕜) (RingHom.id 𝕜) (RingHom.id 𝕜) := RingHomCompTriple.ids

namespace Tensor

/-! ## §1. Tabulated tensors. -/

/-- Only the entries up to the size of the shape matter. -/
theorem tabulate_congr {κ α : Type} (k : κ) (s : List ℕ) {f g : ℕ → α}
    (h : ∀ i < s.prod, f i = g i) : tabulate k s f = tabulate k s g := by
  refine ext rfl rfl (congrArg Array.ofFn ?_)
  funext i
  exact h i i.isLt

theorem map_tabulate {κ α β : Type} (k k' : κ) (s : List ℕ) (f : ℕ → α) (g : α → β) :
    (tabulate k s f).map k' g = tabulate k' s fun i => g (f i) := by
  refine ext rfl rfl ?_
  show Array.map g (Array.ofFn fun i : Fin s.prod => f i) = _
  rw [Array.map_ofFn]
  rfl

/-- A tensor is the table of its entries. -/
theorem tabulate_entry {κ α R : Type} [Control R] [Entry α R κ] (y : Tensor κ α) :
    tabulate y.kind y.shape y.entry = y := by
  refine ext_entry rfl rfl ?_
  intro i hi
  rw [size_tabulate] at hi
  exact entry_tabulate _ _ _ hi

variable {𝕜 : Type} [RCLike 𝕜] {s : List ℕ}

theorem withControl_tabulate (op : Unit → 𝕜 → 𝕜 → 𝕜) (f : ℕ → 𝕜) (r : ℝ) :
    (tabulate () s f).withControl op r = tabulate () s fun i => op () (f i) (r : 𝕜) :=
  map_tabulate _ _ _ _ _

/-- Tensors of one shape are combined position by position. -/
theorem combine_tabulate {κ α R : Type} [Control R] [Kinds κ] [Entry α R κ] {kind k k' : κ}
    (op : κ → α → α → α) (f g : ℕ → α) :
    (combine kind op (tabulate k s f) (tabulate k' s g) : Except (Failure R) _)
      = .ok (tabulate kind s fun i => op kind (f i) (g i)) := by
  refine (if_pos rfl).trans ?_
  refine congrArg Except.ok (tabulate_congr _ _ ?_)
  intro i hi
  rw [entryD_tabulate _ s _ _ hi, entryD_tabulate _ s _ _ hi]

/-! ## §2. Vectors as tensors. -/

/-- The tensor of a shape that holds a vector. -/
def ofVec (s : List ℕ) (v : Space 𝕜 s) : Tensor Unit 𝕜 :=
  tabulate () s fun i => if h : i < s.prod then v ⟨i, h⟩ else 0

/-- The vector that a tensor of a shape holds. -/
noncomputable def vec (s : List ℕ) (x : Tensor Unit 𝕜) : Space 𝕜 s :=
  WithLp.toLp 2 fun i => x.entry i

@[simp] theorem shape_ofVec (v : Space 𝕜 s) : (ofVec s v).shape = s := rfl

@[simp] theorem size_ofVec (v : Space 𝕜 s) : (ofVec s v).size = s.prod := size_tabulate _ _ _

/-- The entries of the tensor of a vector are those of the vector. -/
theorem entry_ofVec (v : Space 𝕜 s) {i : ℕ} (hi : i < s.prod) :
    (ofVec s v).entry i = v ⟨i, hi⟩ := by
  unfold ofVec
  rw [entry_tabulate _ _ _ hi, dif_pos hi]

@[simp] theorem vec_ofVec (v : Space 𝕜 s) : vec s (ofVec s v) = v := by
  ext i
  exact entry_ofVec v i.isLt

/-- **A tensor of the shape is that of its vector.** -/
theorem ofVec_vec {x : Tensor Unit 𝕜} (hx : x.shape = s) : ofVec s (vec s x) = x := by
  refine ext_entry rfl hx.symm ?_
  intro i hi
  rw [size_ofVec] at hi
  exact entry_ofVec _ hi

theorem ofVec_injective : Function.Injective (ofVec s : Space 𝕜 s → Tensor Unit 𝕜) :=
  Function.LeftInverse.injective vec_ofVec

/-! ## §3. The operations of the solver. -/

/-- Sums of tensors are sums of vectors. -/
theorem add_ofVec (u v : Space 𝕜 s) :
    ((ofVec s u).add (ofVec s v) : Except (Failure ℝ) _) = .ok (ofVec s (u + v)) := by
  refine (combine_tabulate _ _ _).trans (congrArg Except.ok (tabulate_congr _ _ ?_))
  intro i hi
  simp [dif_pos hi]

/-- Differences of tensors are differences of vectors. -/
theorem sub_ofVec (u v : Space 𝕜 s) :
    ((ofVec s u).sub (ofVec s v) : Except (Failure ℝ) _) = .ok (ofVec s (u - v)) := by
  refine (combine_tabulate _ _ _).trans (congrArg Except.ok (tabulate_congr _ _ ?_))
  intro i hi
  simp [dif_pos hi, sub_eq_add_neg]

/-- Multiples of tensors are multiples of vectors. -/
theorem scale_ofVec (r : ℝ) (v : Space 𝕜 s) : scale r (ofVec s v) = ofVec s ((r : 𝕜) • v) := by
  refine (withControl_tabulate _ _ _).trans (tabulate_congr _ _ ?_)
  intro i hi
  show (dite _ _ _ : 𝕜) * (r : 𝕜) = _
  -- Entries stand to the left of the control number, vectors to the right of the scalar.
  rw [dif_pos hi, dif_pos hi, mul_comm]
  rfl

theorem divBy_ofVec (v : Space 𝕜 s) (r : ℝ) :
    (ofVec s v).divBy r = ofVec s ((r : 𝕜)⁻¹ • v) := by
  refine (withControl_tabulate _ _ _).trans (tabulate_congr _ _ ?_)
  intro i hi
  show (dite _ _ _ : 𝕜) / (r : 𝕜) = _
  rw [dif_pos hi, dif_pos hi, div_eq_inv_mul]
  rfl

/-- A tensor of zeros is that of the vector zero. -/
theorem zerosLike_ofVec (v : Space 𝕜 s) :
    (ofVec s v).zerosLike = ofVec s (0 : Space 𝕜 s) := by
  show tabulate () s (fun _ => Entry.zero ()) = _
  apply tabulate_congr
  intro i hi
  rw [dif_pos hi, Entry.zero_exact]
  rfl

/-! ## §4. The norm. -/

omit [RCLike 𝕜] in
theorem prod_eq_one_of_isSingle {x : Tensor Unit 𝕜} (h : x.isSingle = true) :
    x.shape.prod = 1 := by
  apply List.prod_eq_one
  intro n hn
  exact beq_iff_eq.1 (List.all_eq_true.1 h n hn)

/-- The norm of a vector is the root of the sum of its squares. -/
theorem norm_eq_sqrt_sum (v : Space 𝕜 s) :
    ‖v‖ = √(∑ i ∈ Finset.range s.prod, ‖(ofVec s v).entry i‖ ^ 2) := by
  rw [EuclideanSpace.norm_eq, Finset.sum_range]
  refine congrArg Real.sqrt (Finset.sum_congr rfl ?_)
  intro i _
  rw [entry_ofVec v i.isLt]

/-- The squared norm of the vector that a tensor holds. -/
theorem norm_vec_sq (x : Tensor Unit 𝕜) :
    ‖vec s x‖ ^ 2 = ∑ i ∈ Finset.range s.prod, ‖x.entry i‖ ^ 2 := by
  rw [EuclideanSpace.norm_sq_eq, Finset.sum_range]
  rfl

/-- The root of the sum of the squared magnitudes, in exact arithmetic. -/
theorem rootSumSq_exact (f : ℕ → 𝕜) (n : ℕ) :
    rootSumSq () f n = ((√(∑ i ∈ Finset.range n, ‖f i‖ ^ 2) : ℝ) : 𝕜) := by
  show ((√(RCLike.re (Entry.sumTo () (fun i => Entry.normSq () (f i)) n)) : ℝ) : 𝕜) = _
  rw [Entry.sumTo_exact, map_sum]
  refine congrArg (fun r : ℝ => ((√r : ℝ) : 𝕜)) (Finset.sum_congr rfl ?_)
  intro i _
  exact RCLike.ofReal_re _

theorem norm_ofVec (v : Space 𝕜 s) :
    ((ofVec s v).norm : Except (Failure ℝ) _) = .ok (point () ‖v‖) := by
  refine congrArg Except.ok (tabulate_congr _ _ ?_)
  intro _ _
  by_cases h : (ofVec s v).isSingle = true
  · -- One entry: its magnitude is the root of its square.
    rw [if_pos h, norm_eq_sqrt_sum, show s.prod = 1 from prod_eq_one_of_isSingle h,
      Finset.sum_range_one, Real.sqrt_sq (norm_nonneg _)]
    rfl
  · rw [if_neg h, norm_eq_sqrt_sum]
    refine (rootSumSq_exact _ _).trans ?_
    rw [size_ofVec]
    rfl

/-- **The norm of a tensor is that of its vector**, whether it has one entry or many. -/
theorem normValue_ofVec (v : Space 𝕜 s) :
    ((ofVec s v).normValue : Except (Failure ℝ) ℝ) = .ok ‖v‖ := by
  show ((ofVec s v).norm >>= fun n => .ok (Entry.toControl (n.entry 0))) = _
  rw [norm_ofVec]
  exact congrArg Except.ok (RCLike.ofReal_re _)

end Tensor

end PrimalDual
