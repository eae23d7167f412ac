/-
  PrimalDual.Proofs.Operator.Adjoint
  ──────────────────────────────────
  **ADJOINT DIRECTIONS.**

  The two directions of an operator are mutually adjoint on the tensors of a
  shape `D` if, wherever the first returns some `u`, the second accepts every
  `y` of the shape of `u`, returns to the shape `D`, and

      ⟨u, y⟩ = ⟨x, v⟩

  with the inner product over all entries (`dot`).  An operator whose range
  is read as a vector inherits this from the operator itself, and a stacked
  operator from its blocks: the vector of `[A; B]` is cut where that of `A`
  ends.
-/
import PrimalDual.Proofs.Exact.Entries

namespace PrimalDual

variable {𝕜 : Type} [RCLike 𝕜]

/-! ## §1. Inner products. -/

namespace Tensor

/-- The inner product of two tensors over all entries, conjugate-linear in the first. -/
noncomputable def dot (x y : Tensor Unit 𝕜) : 𝕜 :=
  ∑ i ∈ Finset.range x.size, star (x.entry i) * y.entry i

/-- The inner product is conjugate symmetric. -/
theorem star_dot {x y : Tensor Unit 𝕜} (h : x.shape = y.shape) : star (dot x y) = dot y x := by
  unfold dot
  rw [star_sum, size_eq, size_eq, h]
  apply Finset.sum_congr rfl
  intro i _
  rw [star_mul, star_star]

/-- To a tensor a multiple of another one of its shape is added entry by entry. -/
theorem addMultiple_of_shape (c : ℝ) {x y : Tensor Unit 𝕜} (h : x.shape = y.shape) :
    ∃ z, (addMultiple c x y : Except (Failure ℝ) _) = .ok z ∧ z.shape = x.shape
      ∧ ∀ i < x.size, z.entry i = x.entry i + c * y.entry i := by
  have hstretch : stretch x.shape y.shape = some x.shape := by
    rw [← h]
    exact stretch_self _
  refine ⟨_, addMultiple_of_stretch _ hstretch, rfl, ?_⟩
  intro i hi
  rw [size_eq] at hi
  rw [entry_tabulate _ _ _ hi, source_self hi, ← h, source_self hi]

theorem add_of_shape {x y : Tensor Unit 𝕜} (h : x.shape = y.shape) :
    ∃ z, (x.add y : Except (Failure ℝ) _) = .ok z ∧ z.shape = x.shape
      ∧ ∀ i < x.size, z.entry i = x.entry i + y.entry i := by
  obtain ⟨z, hz, hshape, hentry⟩ := addMultiple_of_shape Control.one h
  refine ⟨z, hz, hshape, ?_⟩
  intro i hi
  rw [hentry i hi, Control.one_real, RCLike.ofReal_one, one_mul]

theorem sub_of_shape {x y : Tensor Unit 𝕜} (h : x.shape = y.shape) :
    ∃ z, (x.sub y : Except (Failure ℝ) _) = .ok z ∧ z.shape = x.shape
      ∧ ∀ i < x.size, z.entry i = x.entry i - y.entry i := by
  obtain ⟨z, hz, hshape, hentry⟩ := addMultiple_of_shape (Control.ofInt (-1)) h
  refine ⟨z, hz, hshape, ?_⟩
  intro i hi
  rw [hentry i hi, Control.ofInt_real]
  push_cast
  ring

end Tensor

open Tensor

/-! ## §2. Mutually adjoint maps. -/

/-- On tensors of shape `D`, `g` is the adjoint of `f` and accepts all that it has to. -/
def MutuallyAdjoint (D : List ℕ) (f g : Tensor Unit 𝕜 → Except (Failure ℝ) (Tensor Unit 𝕜)) :
    Prop :=
  ∀ x, x.shape = D → ∀ u, f x = .ok u → ∀ y, y.shape = u.shape →
    ∃ v, g y = .ok v ∧ v.shape = D ∧ dot u y = dot x v

namespace Operator

variable {D : List ℕ} {op A B : Operator (Except (Failure ℝ)) ℝ Unit 𝕜}

/-- The identity is its own adjoint. -/
theorem adjoint_identity :
    MutuallyAdjoint D (identity : Operator (Except (Failure ℝ)) ℝ Unit 𝕜).forward
      identity.adjoint := by
  intro x hx u hu y hy
  cases hu
  exact ⟨y, rfl, hy.trans hx, rfl⟩

/-- Every value of the operator on tensors of shape `D` has the shape `s`. -/
def RangeShape (D : List ℕ) (op : Operator (Except (Failure ℝ)) ℝ Unit 𝕜) (s : List ℕ) : Prop :=
  ∀ x, x.shape = D → ∀ u, op.forward x = .ok u → u.shape = s

/-- The operator returns a tensor of shape `s` on every tensor of shape `D`. -/
def Returns (D : List ℕ) (op : Operator (Except (Failure ℝ)) ℝ Unit 𝕜) (s : List ℕ) : Prop :=
  ∀ x, x.shape = D → ∃ u, op.forward x = .ok u ∧ u.shape = s

/-- An operator that always returns has one shape of values. -/
theorem Returns.rangeShape {s : List ℕ} (h : Returns D op s) : RangeShape D op s := by
  intro x hx u hu
  obtain ⟨u', hu', hshape⟩ := h x hx
  cases hu.symm.trans hu'
  exact hshape

/-- A flattened operator returns vectors. -/
theorem returns_flattened {s : List ℕ} (h : Returns D op s) (rangeShape : List ℤ) :
    Returns D (flattened op rangeShape) [s.prod] := by
  intro x hx
  obtain ⟨u, hu, hshape⟩ := h x hx
  refine ⟨u.flatten, bind_returns hu rfl, ?_⟩
  rw [shape_flatten, size_eq, hshape]

/-- A stacked operator returns vectors of both lengths together. -/
theorem returns_stacked {m n : ℕ} (hA : Returns D A [m]) (hB : Returns D B [n])
    (q : Quantity ℝ) : Returns D (stacked A B q) [m + n] := by
  intro x hx
  obtain ⟨u, hu, hushape⟩ := hA x hx
  obtain ⟨v, hv, hvshape⟩ := hB x hx
  have happend := append_vectors (shape_flatten u) (shape_flatten v)
  refine ⟨_, bind_returns hu (bind_returns hv happend), ?_⟩
  rw [shape_tabulate, size_flatten, size_flatten, size_eq, size_eq, hushape, hvshape,
    List.prod_singleton, List.prod_singleton]

/-- An operator whose range is read as a vector. -/
theorem adjoint_flattened {s : List ℕ} (hrange : RangeShape D op s)
    (h : MutuallyAdjoint D op.forward op.adjoint) :
    MutuallyAdjoint D (flattened op (s.map Int.ofNat)).forward
      (flattened op (s.map Int.ofNat)).adjoint := by
  intro x hx u hu y hy
  obtain ⟨w, hw, hu⟩ := bind_eq_ok.1 hu
  cases hu
  have hwshape := hrange x hx w hw
  have hsize : s.prod = y.size := by
    rw [size_eq y, hy, shape_flatten, List.prod_singleton, size_eq, hwshape]
  have hreshape : (y.reshape (s.map Int.ofNat) : Except (Failure ℝ) _)
      = .ok (y.withShape s hsize) := by
    refine reshape_eq_ok.2 ⟨s, hsize, ?_, rfl⟩
    rw [inferShape_map_ofNat, if_pos hsize]
  obtain ⟨v, hv, hvshape, hdot⟩ := h x hx w hw (y.withShape s hsize) hwshape.symm
  exact ⟨v, bind_returns hreshape hv, hvshape, hdot⟩

/-! ## §3. Stacked operators. -/

/-- An adjoint of a stack that returned has cut its argument, asked both blocks and added what they
returned. -/
theorem adjoint_stacked_ok {R κ α : Type} [Control R] [Kinds κ] [Entry α R κ]
    {A B : Operator (Except (Failure R)) R κ α} {q : Quantity R} {y w : Tensor κ α}
    (h : (stacked A B q).adjoint y = .ok w) :
    ∃ cut lead u trail v, (cutBefore y.size q : Except (Failure R) _) = .ok cut
      ∧ (y.leading cut : Except (Failure R) _) = .ok lead ∧ A.adjoint lead = .ok u
      ∧ (y.trailing cut : Except (Failure R) _) = .ok trail ∧ B.adjoint trail = .ok v
      ∧ u.add v = .ok w := by
  obtain ⟨cut, hcut, h⟩ := bind_eq_ok.1 h
  obtain ⟨lead, hlead, h⟩ := bind_eq_ok.1 h
  obtain ⟨u, hu, h⟩ := bind_eq_ok.1 h
  obtain ⟨trail, htrail, h⟩ := bind_eq_ok.1 h
  obtain ⟨v, hv, h⟩ := bind_eq_ok.1 h
  exact ⟨cut, lead, u, trail, v, hcut, hlead, hu, htrail, hv, h⟩

/-- A vector cut into its first `m` entries and the others. -/
theorem cut_vector {y : Tensor Unit 𝕜} {m n : ℕ} (hy : y.shape = [m + n]) :
    ∃ u v, (y.leading m : Except (Failure ℝ) _) = .ok u
      ∧ (y.trailing m : Except (Failure ℝ) _) = .ok v ∧ u.shape = [m] ∧ v.shape = [n]
      ∧ (∀ i < m, u.entry i = y.entry i) ∧ ∀ i < n, v.entry i = y.entry (m + i) := by
  have hcut : cutPoint (y.shape.headD 0) m = m := by
    rw [hy]
    exact cutPoint_of_le (Nat.le_add_right m n)
  have hlength : y.shape.headD 0 = m + n := by rw [hy]; rfl
  refine ⟨tabulate () [m] fun i => y.entry (0 * 1 + i), tabulate () [n] fun i => y.entry (m * 1 + i),
    ?_, ?_, rfl, rfl, fun i hi => ?_, fun i hi => ?_⟩
  · unfold leading rows
    rw [hcut, hy]
    rfl
  · unfold trailing rows
    dsimp only
    rw [hcut, hlength, Nat.add_sub_cancel_left, hy]
    rfl
  · rw [entry_tabulate _ _ _ (by rwa [List.prod_singleton]), Nat.zero_mul, Nat.zero_add]
  · rw [entry_tabulate _ _ _ (by rwa [List.prod_singleton]), Nat.mul_one]

/-- The blocks of a stacked operator that have vectors as values. -/
theorem adjoint_stacked {q : ℕ} (hArange : ∀ x, x.shape = D → ∀ u, A.forward x = .ok u →
      ∃ m, u.shape = [m]) (hBrange : RangeShape D B [q])
    (hA : MutuallyAdjoint D A.forward A.adjoint) (hB : MutuallyAdjoint D B.forward B.adjoint) :
    MutuallyAdjoint D (stacked A B (.whole q)).forward (stacked A B (.whole q)).adjoint := by
  intro x hx w hw y hy
  obtain ⟨u, hu, hw⟩ := bind_eq_ok.1 hw
  obtain ⟨v, hv, hw⟩ := bind_eq_ok.1 hw
  obtain ⟨m, hm⟩ := hArange x hx u hu
  have hq := hBrange x hx v hv
  have husize : u.size = m := size_of_vector hm
  have hvsize : v.size = q := size_of_vector hq
  obtain ⟨hwshape, hfirst, hlast⟩ := append_ok (shape_flatten u) (shape_flatten v) hw
  rw [size_flatten, size_flatten, husize, hvsize] at hwshape hlast
  rw [size_flatten, husize] at hfirst
  -- The vector `y` is cut where the value of `A` ends.
  rw [hwshape] at hy
  obtain ⟨y₁, y₂, hy₁, hy₂, hshape₁, hshape₂, hentry₁, hentry₂⟩ := cut_vector hy
  have hcut : (cutBefore y.size (.whole q) : Except (Failure ℝ) ℤ) = .ok (m : ℤ) := by
    refine congrArg Except.ok ?_
    rw [size_of_vector hy]
    omega
  obtain ⟨a, ha, hashape, hdotA⟩ := hA x hx u hu y₁ (hshape₁.trans hm.symm)
  obtain ⟨b, hb, hbshape, hdotB⟩ := hB x hx v hv y₂ (hshape₂.trans hq.symm)
  obtain ⟨z, hz, hzshape, hentry⟩ := add_of_shape (hashape.trans hbshape.symm)
  have hadjoint : (stacked A B (.whole q)).adjoint y = .ok z := by
    apply bind_returns hcut
    apply bind_returns hy₁
    apply bind_returns ha
    apply bind_returns hy₂
    apply bind_returns hb
    exact hz
  refine ⟨z, hadjoint, hzshape.trans hashape, ?_⟩
  have hsize : x.size = a.size := by rw [size_eq, size_eq, hx, hashape]
  have hwsize : w.size = m + q := size_of_vector hwshape
  calc dot w y = dot u y₁ + dot v y₂ := by
        unfold dot
        rw [hwsize, husize, hvsize, Finset.sum_range_add]
        refine congrArg₂ (· + ·) (Finset.sum_congr rfl ?_)
          (Finset.sum_congr rfl ?_)
        · intro i hi
          rw [hfirst i (Finset.mem_range.1 hi), hentry₁ i (Finset.mem_range.1 hi)]
          rfl
        · intro i hi
          rw [hlast i (Finset.mem_range.1 hi), hentry₂ i (Finset.mem_range.1 hi)]
          rfl
    _ = dot x a + dot x b := by rw [hdotA, hdotB]
    _ = dot x z := by
        unfold dot
        rw [← Finset.sum_add_distrib]
        apply Finset.sum_congr rfl
        intro i hi
        rw [hentry i (hsize ▸ Finset.mem_range.1 hi), mul_add]

end Operator

end PrimalDual
