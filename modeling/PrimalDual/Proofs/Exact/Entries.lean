/-
  PrimalDual.Proofs.Exact.Entries
  ───────────────────────────────
  **TENSORS OF ANY SHAPE, ENTRY BY ENTRY.**

  In exact arithmetic, for tensors whose shapes need not agree:

      addMultiple_ok      the entries of a sum that returned
      entry_scale         the entries of a multiple
      normValue_eq        the norm

  Multiples by a real number commute with everything that the solver does to
  its data (`flatten_scale`, `append_scale`, `add_scale`, …), so a rescaled
  tensor may be rescaled back at any later point.
-/
import PrimalDual.Proofs.Exact.Block
import PrimalDual.Proofs.Tensor.Stretch

namespace PrimalDual

namespace Tensor

variable {𝕜 : Type} [RCLike 𝕜]

/-! ## §1. Entries. -/

section Sizes

variable {κ α : Type} {x : Tensor κ α} {n : ℕ} {t : List ℕ}

theorem size_of_vector (h : x.shape = [n]) : x.size = n := by
  rw [size_eq, h, List.prod_singleton]

theorem size_of_cons (h : x.shape = n :: t) : x.size = n * t.prod := by
  rw [size_eq, h, List.prod_cons]

/-- A vector read as a vector is unchanged. -/
theorem flatten_of_vector (h : x.shape = [n]) : x.flatten = x := by
  refine ext rfl ?_ rfl
  rw [shape_flatten, size_of_vector h, h]

end Sizes

/-- Past its size a tensor has zeros. -/
theorem entry_eq_zero {x : Tensor Unit 𝕜} {i : ℕ} (h : x.size ≤ i) : x.entry i = 0 := by
  unfold entry entryD
  rw [Array.getD_eq_getD_getElem?, Array.getElem?_eq_none h, Option.getD_none, Entry.zero_exact]

theorem entryD_map {κ α β : Type} (k : κ) (f : α → β) (x : Tensor κ α) (d : α) (i : ℕ) :
    (x.map k f).entryD (f d) i = f (x.entryD d i) := by
  unfold entryD map
  rw [Array.getD_eq_getD_getElem?, Array.getD_eq_getD_getElem?, Array.getElem?_map,
    Option.getD_map]

theorem entry_map (f : 𝕜 → 𝕜) (hf : f 0 = 0) (x : Tensor Unit 𝕜) (i : ℕ) :
    (x.map () f).entry i = f (x.entry i) := by
  have h := entryD_map () f x 0 i
  rw [hf] at h
  unfold entry
  rwa [Entry.zero_exact]

@[simp] theorem size_scale (c : ℝ) (x : Tensor Unit 𝕜) : (scale c x).size = x.size :=
  size_map _ _ _

@[simp] theorem size_divBy (x : Tensor Unit 𝕜) (c : ℝ) : (x.divBy c).size = x.size :=
  size_map _ _ _

theorem entry_scale (c : ℝ) (x : Tensor Unit 𝕜) (i : ℕ) :
    (scale c x).entry i = (c : 𝕜) * x.entry i := by
  rw [mul_comm]
  exact entry_map (fun a => a * (c : 𝕜)) (zero_mul _) x i

/-- A quotient by a number is the multiple by its inverse. -/
theorem divBy_eq_scale (x : Tensor Unit 𝕜) (c : ℝ) : x.divBy c = scale c⁻¹ x := by
  unfold divBy scale withControl
  refine congrArg (fun f => x.map () f) ?_
  funext a
  show a / (c : 𝕜) = a * ((c⁻¹ : ℝ) : 𝕜)
  rw [RCLike.ofReal_inv, div_eq_mul_inv]

theorem scale_scale (a b : ℝ) (x : Tensor Unit 𝕜) : scale a (scale b x) = scale (a * b) x := by
  refine ext_entry rfl rfl ?_
  intro i _
  rw [entry_scale, entry_scale, entry_scale, RCLike.ofReal_mul, mul_assoc]

theorem scale_one (x : Tensor Unit 𝕜) : scale 1 x = x := by
  refine ext_entry rfl rfl ?_
  intro i _
  rw [entry_scale, RCLike.ofReal_one, one_mul]

/-- What is divided by a factor and multiplied by it is unchanged. -/
theorem scale_divBy {c : ℝ} (hc : c ≠ 0) (t : Tensor Unit 𝕜) : scale c (t.divBy c) = t := by
  rw [divBy_eq_scale, scale_scale, mul_inv_cancel₀ hc, scale_one]

/-- Dividing by a multiple of the divisor undoes the multiple. -/
theorem divBy_scale {c : ℝ} (hc : c ≠ 0) (x : Tensor Unit 𝕜) (r : ℝ) :
    (scale c x).divBy (c * r) = x.divBy r := by
  rw [divBy_eq_scale, divBy_eq_scale, scale_scale]
  congr 1
  field_simp

/-- Raising all entries to zero. -/
theorem atLeast_zero_ok (x : Tensor Unit ℝ) : ∃ z,
    (x.atLeast Control.zero : Except (Failure ℝ) _) = .ok z ∧ z.shape = x.shape
      ∧ ∀ i, z.entry i = max 0 (x.entry i) := by
  have hzero : Entry.atLeast () (Control.zero : ℝ) (0 : ℝ) = 0 := by
    show max (Control.zero : ℝ) 0 = 0
    rw [Control.zero_real, max_self]
  refine ⟨x.map () (Entry.atLeast () (Control.zero : ℝ)), rfl, rfl, ?_⟩
  intro i
  rw [entry_map _ hzero, ← Control.zero_real]
  rfl

/-! ## §2. Sums of stretched tensors. -/

section ZipWith

variable {κ α β γ R : Type} (kind : κ) (f : α → β → γ) (da : α) (db : β) {x : Tensor κ α}
  {y : Tensor κ β}

/-- Two tensors are combined if their shapes can be stretched to one another. -/
theorem zipWith_of_stretch {s : List ℕ} (h : stretch x.shape y.shape = some s) :
    (zipWith kind f da db x y : Except (Failure R) _) = .ok (tabulate kind s fun i =>
      f (x.entryD da (source x.shape s i)) (y.entryD db (source y.shape s i))) := by
  unfold zipWith
  by_cases hshape : x.shape = y.shape
  · rw [← hshape, stretch_self, Option.some.injEq] at h
    subst h
    rw [if_pos hshape]
    refine congrArg Except.ok (tabulate_congr _ _ ?_)
    intro i hi
    rw [← hshape, source_self hi]
  · rw [if_neg hshape, h]

/-- Tensors whose shapes do not stretch are not combined. -/
theorem zipWith_of_stretch_none (h : stretch x.shape y.shape = none) :
    (zipWith kind f da db x y : Except (Failure R) _) = .error .shapeMismatch := by
  unfold zipWith
  by_cases hshape : x.shape = y.shape
  · rw [← hshape, stretch_self] at h
    cases h
  · rw [if_neg hshape, h]

/-- What two tensors are combined to has their common shape. -/
theorem shape_zipWith {kind f da db} {z : Tensor κ γ}
    (h : (zipWith kind f da db x y : Except (Failure R) _) = .ok z) :
    stretch x.shape y.shape = some z.shape := by
  cases hstretch : stretch x.shape y.shape with
  | none =>
    rw [zipWith_of_stretch_none _ _ _ _ hstretch] at h
    cases h
  | some s =>
    rw [zipWith_of_stretch _ _ _ _ hstretch] at h
    cases h
    rfl

end ZipWith

/-- The sum returns if the shapes can be stretched to one another. -/
theorem addMultiple_of_stretch (c : ℝ) {x y : Tensor Unit 𝕜} {s : List ℕ}
    (h : stretch x.shape y.shape = some s) :
    (addMultiple c x y : Except (Failure ℝ) _) = .ok (tabulate () s fun i =>
      x.entry (source x.shape s i) + c * y.entry (source y.shape s i)) :=
  zipWith_of_stretch _ _ _ _ h

theorem addMultiple_of_stretch_none (c : ℝ) {x y : Tensor Unit 𝕜}
    (h : stretch x.shape y.shape = none) :
    (addMultiple c x y : Except (Failure ℝ) _) = .error .shapeMismatch :=
  zipWith_of_stretch_none _ _ _ _ h

/-- **The entries of a sum that returned.**  Each operand is read where its shape is
stretched to that of the sum. -/
theorem addMultiple_ok {c : ℝ} {x y z : Tensor Unit 𝕜}
    (h : (addMultiple c x y : Except (Failure ℝ) _) = .ok z) :
    stretch x.shape y.shape = some z.shape ∧ ∀ i < z.size, z.entry i
      = x.entry (source x.shape z.shape i) + c * y.entry (source y.shape z.shape i) := by
  cases hstretch : stretch x.shape y.shape with
  | none =>
    rw [addMultiple_of_stretch_none _ hstretch] at h
    cases h
  | some s =>
    rw [addMultiple_of_stretch _ hstretch] at h
    cases h
    refine ⟨rfl, ?_⟩
    intro i hi
    rw [size_tabulate] at hi
    exact entry_tabulate _ _ _ hi

/-- The shape and the entries of a sum that is defined. -/
theorem add_ok {x y z : Tensor Unit 𝕜} (h : (x.add y : Except (Failure ℝ) _) = .ok z) :
    stretch x.shape y.shape = some z.shape ∧ ∀ i < z.size, z.entry i
      = x.entry (source x.shape z.shape i) + y.entry (source y.shape z.shape i) := by
  obtain ⟨hshape, hentry⟩ := addMultiple_ok h
  refine ⟨hshape, ?_⟩
  intro i hi
  rw [hentry i hi, Control.one_real, RCLike.ofReal_one, one_mul]

/-- The multiple of a sum is the sum of the multiples, also where the second operand is
multiplied by a number of its own. -/
theorem addMultiple_scale (c r : ℝ) (x y : Tensor Unit 𝕜) :
    (addMultiple r (scale c x) (scale c y) : Except (Failure ℝ) _)
      = scale c <$> addMultiple r x y := by
  cases h : stretch x.shape y.shape with
  | none =>
    rw [addMultiple_of_stretch_none _ h,
      addMultiple_of_stretch_none (x := scale c x) (y := scale c y) _ h]
    rfl
  | some s =>
    rw [addMultiple_of_stretch _ h,
      addMultiple_of_stretch (x := scale c x) (y := scale c y) _ h]
    refine congrArg Except.ok ?_
    refine Eq.trans (tabulate_congr _ _ ?_) (withControl_tabulate _ _ _).symm
    intro i _
    rw [entry_scale, entry_scale, shape_scale, shape_scale]
    show _ = (_ + _) * (c : 𝕜)
    ring

/-- A factor may be taken out of a sum. -/
theorem add_scale (c : ℝ) (x y : Tensor Unit 𝕜) :
    ((scale c x).add (scale c y) : Except (Failure ℝ) _) = scale c <$> x.add y :=
  addMultiple_scale c _ x y

theorem sub_scale (c : ℝ) (x y : Tensor Unit 𝕜) :
    ((scale c x).sub (scale c y) : Except (Failure ℝ) _) = scale c <$> x.sub y :=
  addMultiple_scale c _ x y

theorem zerosLike_entry (x : Tensor Unit 𝕜) (i : ℕ) : x.zerosLike.entry i = 0 := by
  by_cases hi : i < x.shape.prod
  · exact (entry_tabulate _ _ _ hi).trans (Entry.zero_exact _)
  · refine entry_eq_zero ?_
    rw [size_eq, shape_zerosLike]
    omega

/-- A sum with zeros that stretch to the other operand is that operand. -/
theorem zerosLike_add {x y : Tensor Unit 𝕜} (h : Stretches x.shape y.shape) :
    (x.zerosLike.add y : Except (Failure ℝ) _) = .ok y := by
  unfold add
  rw [addMultiple_of_stretch _ (x := x.zerosLike) (stretch_of_stretches h)]
  refine congrArg Except.ok (ext_entry rfl rfl ?_)
  intro i hi
  rw [size_tabulate] at hi
  rw [entry_tabulate _ _ _ hi, zerosLike_entry, source_self hi, Control.one_real,
    RCLike.ofReal_one, one_mul, zero_add]

/-- Zeros that stretch to the other operand add nothing to it. -/
theorem add_zerosLike {x y : Tensor Unit 𝕜} (h : Stretches y.shape x.shape) :
    (x.add y.zerosLike : Except (Failure ℝ) _) = .ok x := by
  have hshape : stretch x.shape y.zerosLike.shape = some x.shape := by
    rw [shape_zerosLike, stretch_comm]
    exact stretch_of_stretches h
  unfold add
  rw [addMultiple_of_stretch _ hshape]
  refine congrArg Except.ok (ext_entry rfl rfl ?_)
  intro i hi
  rw [size_tabulate] at hi
  rw [entry_tabulate _ _ _ hi, source_self hi, zerosLike_entry, mul_zero, add_zero]

/-- **Sums of stretched tensors may be regrouped.** -/
theorem add_assoc_ok {x y z u w : Tensor Unit 𝕜} (hxy : (x.add y : Except (Failure ℝ) _) = .ok u)
    (huz : (u.add z : Except (Failure ℝ) _) = .ok w) :
    ∃ v, (y.add z : Except (Failure ℝ) _) = .ok v
      ∧ (x.add v : Except (Failure ℝ) _) = .ok w := by
  obtain ⟨hu, huentry⟩ := add_ok hxy
  obtain ⟨hw, hwentry⟩ := add_ok huz
  obtain ⟨t, ht, hxt⟩ := stretch_assoc hu hw
  obtain ⟨v, hv⟩ : ∃ v, (y.add z : Except (Failure ℝ) _) = .ok v :=
    ⟨_, addMultiple_of_stretch _ ht⟩
  obtain ⟨hvshape, hventry⟩ := add_ok hv
  rw [ht, Option.some.injEq] at hvshape
  rw [hvshape] at hxt
  obtain ⟨w', hw'⟩ : ∃ w', (x.add v : Except (Failure ℝ) _) = .ok w' :=
    ⟨_, addMultiple_of_stretch _ hxt⟩
  obtain ⟨hw'shape, hw'entry⟩ := add_ok hw'
  rw [hxt, Option.some.injEq] at hw'shape
  refine ⟨v, hv, hw'.trans (congrArg Except.ok ?_)⟩
  -- Either way an entry is the sum of the three entries that are read for it.
  obtain ⟨hxu, hyu⟩ := stretches_of_stretch hu
  obtain ⟨huw, hzw⟩ := stretches_of_stretch hw
  obtain ⟨hyv, hzv⟩ := stretches_of_stretch (ht.trans (congrArg some hvshape))
  obtain ⟨hxw, hvw⟩ := stretches_of_stretch hxt
  refine ext_entry rfl hw'shape.symm ?_
  intro i hi
  have hiw : i < w.size := by rwa [size_eq, hw'shape, ← size_eq]
  have hiprod : i < w.shape.prod := by rwa [← size_eq]
  have hiu : source u.shape w.shape i < u.size := by
    rw [size_eq]
    exact source_lt huw hiprod
  have hiv : source v.shape w.shape i < v.size := by
    rw [size_eq]
    exact source_lt hvw hiprod
  rw [hw'entry i hi, ← hw'shape, hventry _ hiv, hwentry i hiw, huentry _ hiu,
    source_trans hxu huw hiprod, source_trans hyu huw hiprod, source_trans hyv hvw hiprod,
    source_trans hzv hvw hiprod, add_assoc]

/-! ## §3. Reshaping, joining and norms. -/

theorem flatten_scale (c : ℝ) (x : Tensor Unit 𝕜) :
    (scale c x).flatten = scale c x.flatten := by
  refine ext rfl ?_ rfl
  rw [shape_flatten, size_scale, shape_scale, shape_flatten]

theorem scale_zeros (c : ℝ) (s : List ℕ) :
    scale c (zeros () s : Tensor Unit 𝕜) = zeros () s := by
  refine (withControl_tabulate _ _ _).trans (tabulate_congr _ _ ?_)
  intro i _
  rw [Entry.zero_exact]
  exact zero_mul _

/-- Two vectors are always joined. -/
theorem append_vectors {x y : Tensor Unit 𝕜} {m n : ℕ} (hx : x.shape = [m]) (hy : y.shape = [n]) :
    (x.append y : Except (Failure ℝ) _) = .ok (tabulate () [x.size + y.size] fun i =>
      if i < x.size then x.entry i else y.entry (i - x.size)) := by
  unfold append
  rw [hx, hy]
  rfl

/-- A factor may be taken out of joined vectors. -/
theorem append_scale (c : ℝ) {x y : Tensor Unit 𝕜} {m n : ℕ} (hx : x.shape = [m])
    (hy : y.shape = [n]) :
    ((scale c x).append (scale c y) : Except (Failure ℝ) _) = scale c <$> x.append y := by
  rw [append_vectors hx hy, append_vectors (x := scale c x) (y := scale c y) hx hy]
  refine congrArg Except.ok ?_
  rw [size_scale, size_scale]
  refine Eq.trans (tabulate_congr _ _ ?_) (withControl_tabulate _ _ _).symm
  intro i _
  by_cases h : i < x.size
  · rw [if_pos h, if_pos h, entry_scale, mul_comm]
    rfl
  · rw [if_neg h, if_neg h, entry_scale, mul_comm]
    rfl

/-- The norm of a tensor of any shape. -/
theorem normValue_eq (x : Tensor Unit 𝕜) : (x.normValue : Except (Failure ℝ) ℝ)
    = .ok √(∑ i ∈ Finset.range x.size, ‖x.entry i‖ ^ 2) := by
  rw [← ofVec_vec (x := x) rfl, normValue_ofVec, norm_eq_sqrt_sum, size_ofVec]

/-- A norm does not depend on the shape. -/
theorem normValue_flatten (x : Tensor Unit 𝕜) :
    (x.flatten.normValue : Except (Failure ℝ) ℝ) = x.normValue := by
  rw [normValue_eq, normValue_eq]
  rfl

/-- The entries of two vectors that were joined. -/
theorem append_ok {x y z : Tensor Unit 𝕜} {m n : ℕ} (hx : x.shape = [m]) (hy : y.shape = [n])
    (h : (x.append y : Except (Failure ℝ) _) = .ok z) :
    z.shape = [x.size + y.size] ∧ (∀ i < x.size, z.entry i = x.entry i)
      ∧ ∀ i < y.size, z.entry (x.size + i) = y.entry i := by
  rw [append_vectors hx hy] at h
  cases h
  have hprod : [x.size + y.size].prod = x.size + y.size := List.prod_singleton
  refine ⟨rfl, fun i hi => ?_, fun i hi => ?_⟩
  · rw [entry_tabulate _ _ _ (by omega), if_pos hi]
  · rw [entry_tabulate _ _ _ (by omega), if_neg (by omega), Nat.add_sub_cancel_left]

/-- A vector continued by zeros keeps its norm. -/
theorem append_zeros_ok {x z : Tensor Unit 𝕜} {m q : ℕ} (hx : x.shape = [m])
    (h : (x.append (zeros () [q]) : Except (Failure ℝ) _) = .ok z) :
    z.shape = [x.size + q] ∧ (z.normValue : Except (Failure ℝ) ℝ) = x.normValue := by
  have hzeros : (zeros () [q] : Tensor Unit 𝕜).shape = [q] := rfl
  have hsize : (zeros () [q] : Tensor Unit 𝕜).size = q := size_of_vector hzeros
  obtain ⟨hshape, hfirst, hlast⟩ := append_ok hx hzeros h
  rw [hsize] at hshape hlast
  have hzsize : z.size = x.size + q := size_of_vector hshape
  refine ⟨hshape, ?_⟩
  rw [normValue_eq, normValue_eq, hzsize, Finset.sum_range_add]
  refine congrArg (fun r : ℝ => Except.ok √r) ?_
  -- The entries of the vector come first, and nothing but zeros follow.
  have hrest : ∑ i ∈ Finset.range q, ‖z.entry (x.size + i)‖ ^ 2 = 0 := by
    apply Finset.sum_eq_zero
    intro i hi
    have hi' : i < [q].prod := by rwa [List.prod_singleton, ← Finset.mem_range]
    have hentry : (zeros () [q] : Tensor Unit 𝕜).entry i = 0 :=
      (entry_tabulate _ _ _ hi').trans (Entry.zero_exact _)
    rw [hlast i (Finset.mem_range.1 hi), hentry, norm_zero, zero_pow two_ne_zero]
  rw [hrest, add_zero]
  apply Finset.sum_congr rfl
  intro i hi
  rw [hfirst i (Finset.mem_range.1 hi)]

/-- The norm of a multiple is the multiple of the norm. -/
theorem normValue_scale {c : ℝ} (hc : 0 ≤ c) (x : Tensor Unit 𝕜) :
    ((scale c x).normValue : Except (Failure ℝ) ℝ) = (c * ·) <$> x.normValue := by
  rw [← ofVec_vec (x := x) rfl, scale_ofVec, normValue_ofVec, normValue_ofVec, norm_smul,
    RCLike.norm_ofReal, abs_of_nonneg hc]
  rfl

end Tensor

end PrimalDual
