/-
  PrimalDual.Proofs.TestProblem.Draws
  ───────────────────────────────────
  **THE DRAWS OF A SIGNAL.**

  A generator of signals asks its source for three things, one after the
  other: positions below a population without repetition, as many signs, and
  as many magnitudes of an interval.  `SignedDraws` are three such answers.
  Nothing else is known of the source, which may keep a state
  (`SignedDraws.Delivered`), nor of the order of the positions.

      value r     the magnitude of draw `r`, with its sign
-/
import PrimalDual.Proofs.Calls.World
import PrimalDual.Proofs.Exact.Space
import PrimalDual.TestProblem.Generate

namespace PrimalDual

open TestProblem

/-- Positions, signs and magnitudes of `k` entries. -/
structure SignedDraws (population k : ℕ) (low high : ℝ) where
  positions : Fin k ↪ Fin population
  signs : Fin k → Fin 2
  magnitudes : Fin k → Set.Ico low high

namespace SignedDraws

variable {population k : ℕ} {low high : ℝ} (d : SignedDraws population k low high)

/-! ## §1. Values. -/

/-- The magnitude of a draw with its sign. -/
noncomputable def value (r : Fin k) : ℝ := sign (d.signs r) * d.magnitudes r

theorem abs_sign (i : ℕ) : |(sign i : ℝ)| = 1 := by
  unfold sign
  by_cases h : i = 0
  · simp [h]
  · simp [h]

/-- A drawn jump has the drawn magnitude. -/
theorem abs_value (hlow : 0 ≤ low) (r : Fin k) : |d.value r| = d.magnitudes r := by
  unfold value
  rw [abs_mul, abs_sign, one_mul, abs_of_nonneg (hlow.trans (d.magnitudes r).2.1)]

theorem le_abs_value (hlow : 0 ≤ low) (r : Fin k) : low ≤ |d.value r| := by
  rw [d.abs_value hlow r]
  exact (d.magnitudes r).2.1

theorem abs_value_lt (hlow : 0 ≤ low) (r : Fin k) : |d.value r| < high := by
  rw [d.abs_value hlow r]
  exact (d.magnitudes r).2.2

/-- A jump between positive bounds is not zero. -/
theorem value_ne_zero (hlow : 0 < low) (r : Fin k) : d.value r ≠ 0 :=
  abs_pos.1 (hlow.trans_le (d.le_abs_value hlow.le r))

include d in
/-- No more positions are drawn than there are. -/
theorem le_population : k ≤ population := by
  have h := Fintype.card_le_of_embedding d.positions
  rwa [Fintype.card_fin, Fintype.card_fin] at h

/-! ## §2. Delivery. -/

/-- The positions in the order in which they were drawn. -/
def positionList : List ℕ := List.ofFn fun r => (d.positions r : ℕ)

def signList : List ℕ := List.ofFn fun r => (d.signs r : ℕ)

def magnitudeList : List ℝ := List.ofFn fun r => (d.magnitudes r : ℝ)

/-- The signed magnitudes are the drawn values in their order. -/
theorem signed_eq : signed d.signList d.magnitudeList = List.ofFn d.value := by
  unfold signed signList magnitudeList
  apply List.ext_getElem (by simp)
  intro i h₁ h₂
  simp [value]

/-- A source that is asked for the three in turn answers with them. -/
def Delivered {σ : Type} (src : Source (World σ ℝ) ℝ) (g g' : σ) : Prop :=
  ∃ g₁ g₂, (src.choice population k false).play g = (.ok d.positionList, g₁)
    ∧ (src.choice 2 k true).play g₁ = (.ok d.signList, g₂)
    ∧ (src.uniform low high k).play g₂ = (.ok d.magnitudeList, g')

/-- The source that answers with the draws, and with the given normal numbers. -/
def source (normals : List ℝ) : Source (World Unit ℝ) ℝ where
  choice _ _ replacement := pure (if replacement then d.signList else d.positionList)
  uniform _ _ _ := pure d.magnitudeList
  normal _ := pure normals

/-- There is a source that delivers the draws. -/
theorem delivered_source (normals : List ℝ) : d.Delivered (d.source normals) () () :=
  ⟨(), (), rfl, rfl, rfl⟩

end SignedDraws

/-! ## §3. Signals as tensors. -/

namespace TestProblem

open Tensor

/-- Drawn positions with the values that belong to them. -/
theorem zip_ofFn {k : ℕ} (pos : Fin k → ℕ) (v : Fin k → ℝ) :
    (List.ofFn pos).zip (List.ofFn v) = List.ofFn fun r => (pos r, v r) := by
  apply List.ext_getElem (by simp)
  intro i h₁ h₂
  simp

variable {𝕜 : Type} [RCLike 𝕜]

/-- A list of drawn numbers, read as a tensor. -/
theorem ofControls_tabulate (s : List ℕ) (values : Array ℝ) {f : ℕ → ℝ}
    (h : ∀ i < s.prod, values.getD i 0 = f i) :
    (ofControls s values : Tensor Unit 𝕜) = tabulate () s fun i => (f i : 𝕜) := by
  apply tabulate_congr
  intro i hi
  rw [← h i hi]
  show ((values.getD i (Control.zero : ℝ) : ℝ) : 𝕜) = _
  rw [Control.zero_real]

/-- A signal is given by its value at each position. -/
theorem ofControls_range (n : ℕ) (f : ℕ → ℝ) :
    (ofControls [n] ((Array.range n).map f) : Tensor Unit 𝕜)
      = tabulate () [n] fun i => (f i : 𝕜) := by
  apply ofControls_tabulate
  intro i hi
  rw [List.prod_singleton] at hi
  simp [Array.getD, hi]

end TestProblem

end PrimalDual
