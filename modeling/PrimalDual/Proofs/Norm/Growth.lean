/-
  PrimalDual.Proofs.Norm.Growth
  ─────────────────────────────
  **MORE ITERATIONS NEVER LOWER THE ESTIMATE.**

  The power iteration carries a vector and an estimate from one iteration to
  the next.  `loop` is the iteration with both of them in its result, so that
  the vectors of a run can be spoken of:

      iterate_eq_loop     the estimate is what the loop ends with
      loop_add            the loop may be stopped and taken up again
      loop_eq             the vectors are the directions, the estimates come
                          from the gains

  A gain falls by no more than the floor from one iteration to the next, and
  an estimate is `margin` times the root of a gain; so the square of the
  estimate falls by no more than `margin² · floor` with each iteration that
  is added.  It is the lengths of the vectors, below 1 from the first
  renormalisation on, that make the estimate grow.
-/
import PrimalDual.Proofs.Norm.PowerIteration

namespace PrimalDual

open Tensor

namespace NormEstimate

/-! ## §1. The loop with its vector. -/

section Loop

variable {m : Type → Type} {κ α R : Type} [Control R] [Kinds κ] [Entry α R κ]
variable [Monad m] [MonadLiftT (Except (Failure R)) m]

/-- One iteration: the renormalised image of the vector, and the estimate that it gives. -/
def renew (K : Operator m R κ α) (margin : R) (s : Tensor κ α × R) : m (Tensor κ α × R) := do
  let (w, length) ← image K s.1
  return (w.divBy (length + Prox.normFloor), margin * Control.sqrt length)

/-- Vector and estimate after `n` iterations. -/
def loop (K : Operator m R κ α) (margin : R) : ℕ → Tensor κ α × R → m (Tensor κ α × R)
  | 0, s => pure s
  | n + 1, s => renew K margin s >>= loop K margin n

variable [LawfulMonad m]

/-- The estimate is what the loop ends with. -/
theorem iterate_eq_loop (K : Operator m R κ α) (margin : R) :
    ∀ (n : ℕ) (v : Tensor κ α) (bound : R),
      iterate K margin n v bound = Prod.snd <$> loop K margin n (v, bound) := by
  intro n
  induction n with
  | zero =>
    intro v bound
    simp [iterate, loop]
  | succ n ih =>
    intro v bound
    simp [iterate, loop, renew, ih]

/-- The loop may be stopped after `n` iterations and taken up again. -/
theorem loop_add (K : Operator m R κ α) (margin : R) (n k : ℕ) :
    ∀ s : Tensor κ α × R, loop K margin (n + k) s = loop K margin n s >>= loop K margin k := by
  induction n with
  | zero =>
    intro s
    simp [loop]
  | succ n ih =>
    intro s
    have hcount : n + 1 + k = n + k + 1 := by omega
    have hrest : loop K margin (n + k) = fun t => loop K margin n t >>= loop K margin k :=
      funext ih
    rw [hcount]
    simp only [loop, hrest, bind_assoc]

end Loop

/-! ## §2. Vectors and estimates in exact arithmetic. -/

variable {𝕜 : Type} [RCLike 𝕜] {D S : List ℕ}
variable {T : Space 𝕜 D →L[𝕜] Space 𝕜 S} {K : Operator (Except (Failure ℝ)) ℝ Unit 𝕜}

/-- The estimate after `n` iterations from `v`; before the first one it is 1. -/
noncomputable def estimateAfter (T : Space 𝕜 D →L[𝕜] Space 𝕜 S) (margin : ℝ) (v : Space 𝕜 D) :
    ℕ → ℝ
  | 0 => Control.one
  | n + 1 => margin * √(gain T v n)

theorem renew_eq (hK : K.Acts T) (margin bound : ℝ) (v : Space 𝕜 D) :
    renew K margin (ofVec D v, bound) = .ok (ofVec D (turn T v), margin * √‖gram T v‖) := by
  unfold renew
  rw [image_eq hK]
  show Except.ok ((ofVec D (gram T v)).divBy (divisor T v), margin * √‖gram T v‖) = _
  rw [divBy_ofVec]
  rfl

/-- **The loop runs through the directions.** -/
theorem loop_eq (hK : K.Acts T) (margin : ℝ) (v : Space 𝕜 D) :
    ∀ n, loop K margin n (ofVec D v, Control.one)
      = .ok (ofVec D (direction T v n), estimateAfter T margin v n) := by
  intro n
  induction n with
  | zero => rfl
  | succ n ih =>
    rw [loop_add, ih]
    show (renew K margin (ofVec D (direction T v n), _) >>= pure) = _
    rw [renew_eq hK, direction_succ]
    rfl

/-- The estimate is that of the normalised probe, for any number of iterations. -/
theorem estimate_eq_after (hK : K.Acts T)
    {draw : List ℕ → Unit → Except (Failure ℝ) (Tensor Unit 𝕜)} {probe : Space 𝕜 D}
    (hdraw : draw D () = .ok (ofVec D probe)) (margin : ℝ) (n : ℕ) :
    estimate draw K D n margin () = .ok (estimateAfter T margin (unit probe) n) := by
  unfold estimate
  rw [hdraw]
  show (normalise (ofVec D probe) >>= fun v => iterate K margin n v Control.one) = _
  rw [normalise_eq]
  show iterate K margin n (ofVec D (unit probe)) Control.one = _
  rw [iterate_eq_loop, loop_eq hK]
  rfl

/-! ## §3. Growth. -/

theorem sq_estimateAfter (margin : ℝ) (v : Space 𝕜 D) (n : ℕ) :
    estimateAfter T margin v (n + 1) ^ 2 = margin ^ 2 * gain T v n := by
  show (margin * √(gain T v n)) ^ 2 = _
  rw [mul_pow, Real.sq_sqrt (gain_nonneg T v n)]

/-- One more iteration takes no more than the floor from the square of the estimate. -/
theorem sq_estimateAfter_succ {v : Space 𝕜 D} (hv : ‖v‖ ≤ 1) (margin : ℝ) {n : ℕ} (hn : 1 ≤ n) :
    estimateAfter T margin v n ^ 2 - margin ^ 2 * Prox.normFloor
      ≤ estimateAfter T margin v (n + 1) ^ 2 := by
  obtain ⟨k, rfl⟩ : ∃ k, n = k + 1 := ⟨n - 1, by omega⟩
  have hgain : gain T v k - Prox.normFloor ≤ gain T v (k + 1) := by
    linarith [gain_le_gain_succ (T := T) hv k]
  rw [sq_estimateAfter, sq_estimateAfter, ← mul_sub]
  exact mul_le_mul_of_nonneg_left hgain (sq_nonneg margin)

/-- Nor do `j` more iterations take more than `j` floors from it. -/
theorem sq_estimateAfter_add {v : Space 𝕜 D} (hv : ‖v‖ ≤ 1) (margin : ℝ) {n : ℕ} (hn : 1 ≤ n) :
    ∀ j : ℕ, estimateAfter T margin v n ^ 2 - j * (margin ^ 2 * Prox.normFloor)
      ≤ estimateAfter T margin v (n + j) ^ 2 := by
  intro j
  induction j with
  | zero => simp
  | succ j ih =>
    have hstep := sq_estimateAfter_succ (T := T) hv margin (show 1 ≤ n + j by omega)
    rw [← Nat.add_assoc]
    push_cast
    linarith

/-- **Growth of the estimate.**  From one probe, the estimates `est` and the vectors `l` of the
iteration go on in such a way that every vector after the first renormalisation is shorter than
1, and that one more iteration takes no more than `margin² · floor` from the square of the
estimate, nor `j` more iterations more than `j` times as much. -/
theorem estimate_growth (hK : K.Acts T)
    {draw : List ℕ → Unit → Except (Failure ℝ) (Tensor Unit 𝕜)} {probe : Space 𝕜 D}
    (hdraw : draw D () = .ok (ofVec D probe)) (hprobe : probe ≠ 0) (margin : ℝ) :
    ∃ (est : ℕ → ℝ) (l : ℕ → Space 𝕜 D),
      (∀ m : ℕ, estimate draw K D m margin () = .ok (est m))
      ∧ normalise (ofVec D probe) = .ok (ofVec D (l 0)) ∧ ‖l 0‖ = 1
      ∧ (∀ m, loop K margin m (ofVec D (l 0), Control.one) = .ok (ofVec D (l m), est m))
      ∧ (∀ m, 1 ≤ m → ‖l m‖ < 1)
      ∧ (∀ m, 1 ≤ m → est m ^ 2 - margin ^ 2 * Prox.normFloor ≤ est (m + 1) ^ 2)
      ∧ ∀ m j : ℕ, 1 ≤ m → est m ^ 2 - j * (margin ^ 2 * Prox.normFloor) ≤ est (m + j) ^ 2 := by
  have hunit : ‖unit probe‖ = 1 := norm_unit hprobe
  refine ⟨estimateAfter T margin (unit probe), direction T (unit probe),
    estimate_eq_after hK hdraw margin, normalise_eq probe, hunit, loop_eq hK margin _, ?_, ?_, ?_⟩
  · intro m hm
    obtain ⟨n, rfl⟩ : ∃ n, m = n + 1 := ⟨m - 1, by omega⟩
    exact norm_direction_succ_lt _ n
  · intro m hm
    exact sq_estimateAfter_succ hunit.le margin hm
  · intro m j hm
    exact sq_estimateAfter_add hunit.le margin hm j

/-- The estimates for a map with two singular values, from a probe with a part in both
directions. -/
theorem estimate_growth_graded :
    threeFour ≠ 0 ∧ ∃ (est : ℕ → ℝ) (l : ℕ → Space ℝ [2]),
      (∀ m : ℕ, estimate drawThreeFour (.ofLinear (graded [2])) [2] m 1.01 () = .ok (est m))
      ∧ normalise (ofVec [2] threeFour) = .ok (ofVec [2] (l 0)) ∧ ‖l 0‖ = 1
      ∧ (∀ m, (loop (.ofLinear (graded [2])) 1.01 m (ofVec [2] (l 0), Control.one)
          : Except (Failure ℝ) _) = .ok (ofVec [2] (l m), est m))
      ∧ (∀ m, 1 ≤ m → ‖l m‖ < 1)
      ∧ (∀ m, 1 ≤ m → est m ^ 2 - 1.01 ^ 2 * Prox.normFloor ≤ est (m + 1) ^ 2)
      ∧ ∀ m j : ℕ, 1 ≤ m → est m ^ 2 - j * (1.01 ^ 2 * Prox.normFloor) ≤ est (m + j) ^ 2 :=
  ⟨threeFour_ne_zero,
    estimate_growth (Operator.acts_ofLinear (graded [2])) drawThreeFour_eq threeFour_ne_zero 1.01⟩

end NormEstimate

end PrimalDual
