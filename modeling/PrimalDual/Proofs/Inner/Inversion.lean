/-
  PrimalDual.Proofs.Inner.Inversion
  ─────────────────────────────────
  **WHAT A STEP THAT RETURNS HAS COMPUTED.**

  A step calls maps of the caller and may fail at each of them.  One that
  returned has computed every part of its result, and the parts are the
  premises from which the properties of a step are derived:

      advance_ok      the two iterates
      advance_sums    the sums of the iterates
-/
import PrimalDual.Proofs.Exact.Block

namespace PrimalDual

variable {R κ α : Type} [Control R] [Kinds κ] [Entry α R κ]
variable {p : Problem (Except (Failure R)) R κ α} {o : Observer (Except (Failure R)) R κ α}

/-- The dual map keeps shapes. -/
theorem Prox.shape_dual {y z : Tensor κ α} {rho : R} {q : Quantity R} (h : dual y rho q = .ok z) :
    z.shape = y.shape := by
  obtain ⟨cut, -, h⟩ := bind_eq_ok.1 h
  obtain ⟨lead, -, h⟩ := bind_eq_ok.1 h
  obtain ⟨shrunk, -, h⟩ := bind_eq_ok.1 h
  split at h
  · exact Tensor.shape_of_reshape h
  · obtain ⟨trail, -, h⟩ := bind_eq_ok.1 h
    obtain ⟨projected, -, h⟩ := bind_eq_ok.1 h
    obtain ⟨joined, -, h⟩ := bind_eq_ok.1 h
    exact Tensor.shape_of_reshape h

/-- All that a step that returned has computed. -/
theorem Problem.advance_parts {s s' : Iterate κ α} (h : p.advance s = .ok s') :
    (∃ u v e image, p.K.adjoint s.y = .ok u ∧ p.primalArgument s.x u = .ok v
      ∧ p.prox v p.primalStep = .ok s'.x
      ∧ (extrapolate s'.x s.x : Except (Failure R) _) = .ok e
      ∧ p.K.forward e = .ok image ∧ p.dualUpdate s.y image = .ok s'.y)
    ∧ s.xSum.add s'.x = .ok s'.xSum ∧ s.ySum.add s'.y = .ok s'.ySum := by
  unfold advance at h
  obtain ⟨u, hu, h⟩ := bind_eq_ok.1 h
  obtain ⟨v, hv, h⟩ := bind_eq_ok.1 h
  obtain ⟨x, hx, h⟩ := bind_eq_ok.1 h
  obtain ⟨e, he, h⟩ := bind_eq_ok.1 h
  obtain ⟨image, himage, h⟩ := bind_eq_ok.1 h
  obtain ⟨y, hy, h⟩ := bind_eq_ok.1 h
  obtain ⟨xSum, hxSum, h⟩ := bind_eq_ok.1 h
  obtain ⟨ySum, hySum, h⟩ := bind_eq_ok.1 h
  cases h
  exact ⟨⟨u, v, e, image, hu, hv, hx, he, himage, hy⟩, hxSum, hySum⟩

/-- The two iterates of a step that returned. -/
theorem Problem.advance_ok {s s' : Iterate κ α} (h : p.advance s = .ok s') :
    ∃ u v e image, p.K.adjoint s.y = .ok u ∧ p.primalArgument s.x u = .ok v
      ∧ p.prox v p.primalStep = .ok s'.x
      ∧ (extrapolate s'.x s.x : Except (Failure R) _) = .ok e
      ∧ p.K.forward e = .ok image ∧ p.dualUpdate s.y image = .ok s'.y :=
  (advance_parts h).1

/-- The sums of a step that returned. -/
theorem Problem.advance_sums {s s' : Iterate κ α} (h : p.advance s = .ok s') :
    s.xSum.add s'.x = .ok s'.xSum ∧ s.ySum.add s'.y = .ok s'.ySum :=
  (advance_parts h).2

/-- A run of one step returns what the step computes. -/
theorem Inner.run_one_ok {x y : Tensor κ α} {r : InnerResult R κ α}
    (h : Inner.run p o 1 x y = .ok r) :
    ∃ s records, p.advance (.start x y) = .ok s ∧ r = Inner.result o.outputType 1 s records := by
  obtain ⟨⟨s, records⟩, hsteps, h⟩ := bind_eq_ok.1 h
  obtain ⟨s', hs', hsteps⟩ := bind_eq_ok.1 hsteps
  obtain ⟨record, -, hsteps⟩ := bind_eq_ok.1 hsteps
  cases hsteps
  cases h
  exact ⟨_, _, hs', rfl⟩

end PrimalDual

