/-
  PrimalDual.Proofs.Coordinates.Moved
  ───────────────────────────────────
  **TENSORS IN OTHER COORDINATES.**

  A linear isometry `V` between the vectors of two shapes takes a tensor of
  the first shape to one of the second.  `Moved V x x'` says that `x'` is
  what `x` becomes.  The operations of the solver keep this relation,

      scale, divBy, zerosLike, add, sub      by linearity
      normValue, normalise                   since norms are kept

  and an isometry of shapes is one of vectors too: flattening and reshaping
  only read the entries in another shape (`reindex`, `flat`).
-/
import PrimalDual.NormEstimate
import PrimalDual.Proofs.Coordinates.Simulation
import PrimalDual.Proofs.Exact.Entries

namespace PrimalDual

variable {𝕜 : Type} [RCLike 𝕜] {s t : List ℕ} {m n : ℕ}

/-! ## §1. The relation. -/

namespace Tensor

/-- The two tensors hold a vector and its image. -/
def Moved (V : Space 𝕜 s →ₗᵢ[𝕜] Space 𝕜 t) (x x' : Tensor Unit 𝕜) : Prop :=
  ∃ v, x = ofVec s v ∧ x' = ofVec t (V v)

/-- The tensor that holds the image of the vector of a tensor. -/
noncomputable def move (V : Space 𝕜 s →ₗᵢ[𝕜] Space 𝕜 t) (x : Tensor Unit 𝕜) : Tensor Unit 𝕜 :=
  ofVec t (V (vec s x))

variable {V : Space 𝕜 s →ₗᵢ[𝕜] Space 𝕜 t} {x x' y y' : Tensor Unit 𝕜}

theorem moved_ofVec (V : Space 𝕜 s →ₗᵢ[𝕜] Space 𝕜 t) (v : Space 𝕜 s) :
    Moved V (ofVec s v) (ofVec t (V v)) := ⟨v, rfl, rfl⟩

/-- A tensor of the first shape is moved to the tensor that holds the image of its vector. -/
theorem moved_move (V : Space 𝕜 s →ₗᵢ[𝕜] Space 𝕜 t) (h : x.shape = s) : Moved V x (x.move V) :=
  ⟨vec s x, (ofVec_vec h).symm, rfl⟩

namespace Moved

/-- A tensor that is moved has the first shape. -/
theorem shape (h : Moved V x x') : x.shape = s := by
  obtain ⟨v, rfl, -⟩ := h
  rfl

/-- The tensor to which one is moved has the second shape. -/
theorem shape' (h : Moved V x x') : x'.shape = t := by
  obtain ⟨v, -, rfl⟩ := h
  rfl

/-- There is only one tensor to which a tensor is moved. -/
theorem eq_move (h : Moved V x x') : x' = x.move V := by
  obtain ⟨v, rfl, rfl⟩ := h
  unfold move
  rw [vec_ofVec]

/-- In the coordinates in which it is given a tensor stays as it is. -/
theorem eq_self (h : Moved (LinearIsometryEquiv.refl 𝕜 (Space 𝕜 s)).toLinearIsometry x x') :
    x' = x := by
  obtain ⟨v, rfl, rfl⟩ := h
  rfl

/-! ## §2. Linear operations. -/

/-- A multiple of a tensor is moved to the same multiple. -/
theorem scale (h : Moved V x x') (r : ℝ) : Moved V (scale r x) (scale r x') := by
  obtain ⟨v, rfl, rfl⟩ := h
  rw [scale_ofVec, scale_ofVec, ← V.map_smul]
  exact moved_ofVec V _

theorem divBy (h : Moved V x x') (r : ℝ) : Moved V (x.divBy r) (x'.divBy r) := by
  rw [divBy_eq_scale, divBy_eq_scale]
  exact h.scale _

/-- Zeros are moved to zeros. -/
theorem zerosLike (h : Moved V x x') : Moved V x.zerosLike x'.zerosLike := by
  obtain ⟨v, rfl, rfl⟩ := h
  rw [zerosLike_ofVec, zerosLike_ofVec, ← V.map_zero]
  exact moved_ofVec V _

/-- **The sum of two tensors is moved to the sum of theirs**, and both sums are defined. -/
theorem add (hx : Moved V x x') (hy : Moved V y y') :
    Agrees (Moved V) (x.add y : Except (Failure ℝ) _) (x'.add y') := by
  obtain ⟨u, rfl, rfl⟩ := hx
  obtain ⟨v, rfl, rfl⟩ := hy
  rw [add_ofVec, add_ofVec, ← V.map_add]
  exact .ok (moved_ofVec V _)

/-- The difference of two tensors is moved to the difference of theirs. -/
theorem sub (hx : Moved V x x') (hy : Moved V y y') :
    Agrees (Moved V) (x.sub y : Except (Failure ℝ) _) (x'.sub y') := by
  obtain ⟨u, rfl, rfl⟩ := hx
  obtain ⟨v, rfl, rfl⟩ := hy
  rw [sub_ofVec, sub_ofVec, ← V.map_sub]
  exact .ok (moved_ofVec V _)

/-! ## §3. Norms. -/

/-- **The norm of a tensor is that of the tensor to which it is moved.** -/
theorem normValue (h : Moved V x x') :
    (x'.normValue : Except (Failure ℝ) ℝ) = x.normValue := by
  obtain ⟨v, rfl, rfl⟩ := h
  rw [normValue_ofVec, normValue_ofVec, V.norm_map]

end Moved

/-- A tensor divided by a tensor without axes. -/
theorem div_point (v : Space 𝕜 s) (r : ℝ) :
    ((ofVec s v).div (point () r) : Except (Failure ℝ) _) = .ok ((ofVec s v).divBy r) := by
  have hnone : Stretches [] s := by
    have h := stretches_append s []
    rwa [List.append_nil] at h
  have hstretch : stretch (ofVec s v).shape (point () r : Tensor Unit 𝕜).shape = some s :=
    (stretch_comm _ _).trans (stretch_of_stretches hnone)
  have hentry : ∀ i < s.prod, (point () r : Tensor Unit 𝕜).entryD (Entry.zero ())
      (source [] s i) = (r : 𝕜) := by
    intro i hi
    exact entryD_tabulate _ [] _ _ (source_lt hnone hi)
  -- Every entry is divided by the one entry of the divisor.
  refine (zipWith_of_stretch _ _ _ _ hstretch).trans (congrArg Except.ok ?_)
  refine Eq.trans (tabulate_congr _ _ ?_) (withControl_tabulate _ _ _).symm
  intro i hi
  have hown : (ofVec s v).entryD (Entry.zero ()) (source s s i)
      = if h : i < s.prod then v ⟨i, h⟩ else 0 := by
    rw [source_self hi]
    exact entryD_tabulate _ _ _ _ hi
  show Entry.div () ((ofVec s v).entryD (Entry.zero ()) (source s s i))
    ((point () r : Tensor Unit 𝕜).entryD (Entry.zero ()) (source [] s i)) = _
  rw [hown, hentry i hi]

/-- A tensor divided by its norm is moved to the other one divided by its norm. -/
theorem Moved.normalise (h : Moved V x x') :
    Agrees (Moved V) (NormEstimate.normalise x : Except (Failure ℝ) _)
      (NormEstimate.normalise x') := by
  have hvalue : ∀ {u : List ℕ} (w : Space 𝕜 u),
      (NormEstimate.normalise (ofVec u w) : Except (Failure ℝ) _)
        = .ok ((ofVec u w).divBy ‖w‖) := by
    intro u w
    unfold NormEstimate.normalise
    rw [norm_ofVec]
    exact div_point w ‖w‖
  obtain ⟨v, rfl, rfl⟩ := h
  rw [hvalue, hvalue, V.norm_map]
  exact .ok ((moved_ofVec V v).divBy _)

end Tensor

/-! ## §4. Vectors read in another shape. -/

/-- The vectors of two shapes with equally many entries, in the same order. -/
noncomputable def reindex (h : s.prod = t.prod) : Space 𝕜 s ≃ₗᵢ[𝕜] Space 𝕜 t :=
  LinearIsometryEquiv.piLpCongrLeft 2 𝕜 𝕜 (finCongr h)

theorem reindex_apply (h : s.prod = t.prod) (v : Space 𝕜 s) (i : Fin t.prod) :
    reindex h v i = v (Fin.cast h.symm i) := rfl

theorem reindex_symm (h : s.prod = t.prod) : (reindex h : Space 𝕜 s ≃ₗᵢ[𝕜] _).symm
    = reindex h.symm := rfl

/-- A vector that is read in another shape has the same entries in the same order. -/
theorem ofVec_reindex (h : s.prod = t.prod) (v : Space 𝕜 s) :
    Tensor.ofVec t (reindex h v)
      = Tensor.tabulate () t fun i => if hi : i < s.prod then v ⟨i, hi⟩ else 0 := by
  apply Tensor.tabulate_congr
  intro i hi
  rw [dif_pos hi, dif_pos (h ▸ hi), reindex_apply]
  rfl

/-- A shape has the entries of the vectors that its tensors are flattened to.  Maps of such
vectors refer to this one proof. -/
theorem size_vector (s : List ℕ) : s.prod = s.prod := rfl

/-- The vectors of a shape with `m` entries as vectors of length `m`. -/
noncomputable def flatten (h : s.prod = m) : Space 𝕜 s ≃ₗᵢ[𝕜] Space 𝕜 [m] :=
  reindex (h.trans List.prod_singleton.symm)

/-- The coordinates of the tensors of a shape, read as vectors. -/
noncomputable abbrev vectorOf (s : List ℕ) : Space 𝕜 s →ₗᵢ[𝕜] Space 𝕜 [s.prod] :=
  (flatten (size_vector s) : Space 𝕜 s ≃ₗᵢ[𝕜] Space 𝕜 [s.prod]).toLinearIsometry

/-- An isometry of shapes as one of vectors. -/
noncomputable def flat (hs : s.prod = m) (ht : t.prod = n) (U : Space 𝕜 s →ₗᵢ[𝕜] Space 𝕜 t) :
    Space 𝕜 [m] →ₗᵢ[𝕜] Space 𝕜 [n] :=
  (flatten ht).toLinearIsometry.comp (U.comp (flatten hs).symm.toLinearIsometry)

/-- `flat` does to flattened vectors what `U` does to those of the shape. -/
theorem flat_flatten (hs : s.prod = m) (ht : t.prod = n) (U : Space 𝕜 s →ₗᵢ[𝕜] Space 𝕜 t)
    (v : Space 𝕜 s) : flat hs ht U (flatten hs v) = flatten ht (U v) := by
  show flatten ht (U ((flatten hs).symm (flatten hs v))) = _
  rw [LinearIsometryEquiv.symm_apply_apply]

namespace Tensor

/-- Flattening the tensor of a vector reads the vector in one axis. -/
theorem flatten_ofVec (h : s.prod = m) (v : Space 𝕜 s) :
    (ofVec s v).flatten = ofVec [m] (PrimalDual.flatten h v) := by
  subst h
  unfold PrimalDual.flatten
  rw [ofVec_reindex]
  exact flatten_tabulate _

/-- Reshaping the tensor of a vector reads the vector in the shape. -/
theorem reshape_ofVec (h : s.prod = m) (w : Space 𝕜 [m]) :
    ((ofVec [m] w).reshape (s.map Int.ofNat) : Except (Failure ℝ) _)
      = .ok (ofVec s ((PrimalDual.flatten h).symm w)) := by
  unfold PrimalDual.flatten
  rw [reindex_symm, ofVec_reindex]
  exact reshape_tabulate _ (List.prod_singleton.trans h.symm)

variable {U : Space 𝕜 s →ₗᵢ[𝕜] Space 𝕜 t} {x x' : Tensor Unit 𝕜}

/-- **Flattened tensors are moved by the isometry of vectors.** -/
theorem Moved.flatten (hs : s.prod = m) (ht : t.prod = n) (h : Moved U x x') :
    Moved (flat hs ht U) x.flatten x'.flatten := by
  obtain ⟨v, rfl, rfl⟩ := h
  rw [flatten_ofVec hs, flatten_ofVec ht, ← flat_flatten hs]
  exact moved_ofVec _ _

/-- **Reshaped tensors are moved by the isometry of shapes.** -/
theorem Moved.reshape (hs : s.prod = m) (ht : t.prod = n) (h : Moved (flat hs ht U) x x') :
    Agrees (Moved U) (x.reshape (s.map Int.ofNat) : Except (Failure ℝ) _)
      (x'.reshape (t.map Int.ofNat)) := by
  obtain ⟨w, rfl, rfl⟩ := h
  obtain ⟨v, rfl⟩ := (PrimalDual.flatten hs).surjective w
  rw [flat_flatten, reshape_ofVec hs, reshape_ofVec ht, LinearIsometryEquiv.symm_apply_apply,
    LinearIsometryEquiv.symm_apply_apply]
  exact .ok (moved_ofVec U v)

end Tensor

end PrimalDual
