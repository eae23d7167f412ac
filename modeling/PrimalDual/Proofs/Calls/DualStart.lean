/-
  PrimalDual.Proofs.Calls.DualStart
  ─────────────────────────────────
  **DUAL STARTS OF THE WRONG LENGTH.**

  A dual start is not checked when it is given.  It is cut at `size - q`, and a
  start with fewer than `q` entries is cut at a position counted from its end,
  so both blocks of it may well have entries.  Still no length but
  `size b + q` gets through:

      flattened op s      reshapes its argument to `s`, so takes `s.prod` entries only
      stacked A B q       hands each row of its argument to exactly one block,
                          so takes as many entries as both together

  The adjoint of the prepared operator is built of these two, and it is the
  first thing that a step applies to its dual iterate.  A run from a start of
  another length therefore raises a failure in the first step of its first
  restart, if it has not done so before: whatever the arithmetic, and whatever
  the maps of the caller do to their world.
-/
import PrimalDual.Proofs.Calls.Attended
import PrimalDual.Proofs.Coordinates.Solve
import PrimalDual.Proofs.Operator.Language

namespace PrimalDual

open Tensor

variable {σ R κ α β γ : Type}

/-! ## §1. Computations that raise. -/

namespace World

/-- From every state a failure is raised. -/
def Raises (x : World σ R β) : Prop := ∀ s, ∃ e t, x.play s = (.error e, t)

variable {x : World σ R β} {f : β → World σ R γ}

theorem raises_of_not_ok (h : ∀ s a t, x.play s ≠ (.ok a, t)) : x.Raises := by
  intro s
  rcases hplay : x.play s with ⟨e | a, t⟩
  · exact ⟨e, t, rfl⟩
  · exact absurd hplay (h s a t)

/-- What raises keeps what follows from being run. -/
theorem Raises.bind (h : x.Raises) (f : β → World σ R γ) : (x >>= f).Raises := by
  intro s
  obtain ⟨e, t, hplay⟩ := h s
  exact ⟨e, t, play_bind_error hplay⟩

/-- It is enough that a later part raises after everything that an earlier one returns. -/
theorem raises_bind (h : ∀ s a t, x.play s = (.ok a, t) → (f a).Raises) : (x >>= f).Raises := by
  apply raises_of_not_ok
  intro s b u hplay
  obtain ⟨a, t, hx, hf⟩ := play_bind_eq_ok hplay
  obtain ⟨e, v, herror⟩ := h s a t hx t
  rw [hf] at herror
  cases herror

end World

variable [Control R] [Kinds κ] [Entry α R κ]

/-! ## §2. The lengths that an operator takes back. -/

namespace Operator

variable {op A B K : Operator (World σ R) R κ α}

/-- The adjoint returns on tensors of `n` entries only. -/
def TakesBack (op : Operator (World σ R) R κ α) (n : ℕ) : Prop :=
  ∀ y s z t, (op.adjoint y).play s = (.ok z, t) → y.size = n

theorem takesBack_flattened (op : Operator (World σ R) R κ α) (s : List ℕ) :
    (flattened op (s.map Int.ofNat)).TakesBack s.prod := by
  intro y w z t hplay
  obtain ⟨x, _, hreshape, -⟩ := World.play_bind_eq_ok hplay
  rw [World.play_lift] at hreshape
  obtain ⟨_, _, hinfer, -⟩ := reshape_eq_ok.1 (Prod.mk.inj hreshape).1
  rw [inferShape_map_ofNat] at hinfer
  split_ifs at hinfer with hsize
  exact hsize.symm

theorem takesBack_stacked {m n : ℕ} (hA : A.TakesBack m) (hB : B.TakesBack n)
    (q : Quantity R) : (stacked A B q).TakesBack (m + n) := by
  intro y s z t hplay
  obtain ⟨cut, _, -, hplay⟩ := World.play_bind_eq_ok hplay
  obtain ⟨lead, _, hlead, hplay⟩ := World.play_bind_eq_ok hplay
  obtain ⟨u, _, hu, hplay⟩ := World.play_bind_eq_ok hplay
  obtain ⟨trail, _, htrail, hplay⟩ := World.play_bind_eq_ok hplay
  obtain ⟨v, _, hv, -⟩ := World.play_bind_eq_ok hplay
  rw [World.play_lift] at hlead htrail
  have hblocks := size_leading_add_trailing (Prod.mk.inj hlead).1 (Prod.mk.inj htrail).1
  rw [hA lead _ u _ hu, hB trail _ v _ hv] at hblocks
  exact hblocks.symm

/-- A dual vector of another length is refused. -/
theorem TakesBack.raises {n : ℕ} (h : K.TakesBack n) {y : Tensor κ α} (hy : y.size ≠ n) :
    (K.adjoint y).Raises := by
  apply World.raises_of_not_ok
  intro s z t hplay
  exact hy (h y s z t hplay)

end Operator

/-! ## §3. Preparation. -/

namespace Solver

variable {env : Environment (World σ R) R κ α} {r : Request (World σ R) R κ α}

/-- The prepared operator takes back one length, and the dual start keeps the length in
which it was given. -/
theorem prepare_dual {ready : Prepared (World σ R) R κ α} {s t : σ}
    (h : (prepare env r).play s = (.ok ready, t))
    (hq : r.options.analysis = none → r.options.q = 0) :
    ready.schedule.K.TakesBack (r.b.size + r.options.q)
      ∧ (∀ y0 ∈ r.y0, ready.start.y.size = y0.size) ∧ ready.schedule.kIter = r.kIter := by
  obtain ⟨_, _, -, h⟩ := World.play_bind_eq_ok h
  obtain ⟨K, _, hK, h⟩ := World.play_bind_eq_ok h
  obtain ⟨x0, _, -, h⟩ := World.play_bind_eq_ok h
  obtain ⟨⟨K', b'⟩, _, hstacked, h⟩ := World.play_bind_eq_ok h
  obtain ⟨o, _, -, h⟩ := World.play_bind_eq_ok h
  rw [World.play_lift] at hK h
  -- What is divided by the norm of the measurements keeps its length.
  obtain ⟨scale, -, hready⟩ := bind_eq_ok.1 (Prod.mk.inj h).1
  obtain ⟨-, hready⟩ := guard_ok hready
  obtain ⟨epsilon, -, hready⟩ := bind_eq_ok.1 hready
  obtain ⟨delta, -, hready⟩ := bind_eq_ok.1 hready
  obtain ⟨length, -, hready⟩ := bind_eq_ok.1 hready
  cases hready
  refine ⟨?_, ?_, rfl⟩
  · show K'.TakesBack (r.b.size + r.options.q)
    obtain ⟨op, -, hop⟩ := bind_eq_ok.1 (Prod.mk.inj hK).1
    cases hop
    have hmeasurement := Operator.takesBack_flattened op r.b.shape
    rw [← size_eq] at hmeasurement
    cases hanalysis : r.options.analysis with
    | none =>
      rw [hanalysis] at hstacked
      cases hstacked
      rwa [hq hanalysis, add_zero]
    | some analysis =>
      rw [hanalysis] at hstacked
      obtain ⟨B, _, -, hstacked⟩ := World.play_bind_eq_ok hstacked
      obtain ⟨image, _, -, hstacked⟩ := World.play_bind_eq_ok hstacked
      rw [World.play_lift] at hstacked
      obtain ⟨stacked, hstack, hstacked⟩ := bind_eq_ok.1 (Prod.mk.inj hstacked).1
      obtain ⟨_, -, hstacked⟩ := bind_eq_ok.1 hstacked
      cases hstacked
      obtain ⟨hrange, rfl⟩ := Operator.stack_range hstack
      have hanalysed := Operator.takesBack_flattened B image.shape
      rw [hrange] at hanalysed
      exact Operator.takesBack_stacked hmeasurement hanalysed _
  · intro y0 hy0
    rw [Option.mem_def] at hy0
    show (((r.y0.getD b'.zerosLike).flatten).divBy scale).size = y0.size
    rw [hy0, Option.getD_some]
    exact size_map _ _ _

end Solver

/-! ## §4. Runs from a dual iterate of the wrong length. -/

section Runs

variable {p : Problem (World σ R) R κ α} {o : Observer (World σ R) R κ α} {n : ℕ}

/-- A step begins with the adjoint of its dual iterate. -/
theorem Problem.advance_raises (hK : p.K.TakesBack n) {s : Iterate κ α} (hy : s.y.size ≠ n) :
    (p.advance s).Raises :=
  (hK.raises hy).bind _

theorem Inner.run_raises (hK : p.K.TakesBack n) {kIter : ℤ} (hk : 1 ≤ kIter) (x : Tensor κ α)
    {y : Tensor κ α} (hy : y.size ≠ n) : (Inner.run p o kIter x y).Raises := by
  obtain ⟨k, hk⟩ : ∃ k, kIter.toNat = k + 1 := ⟨kIter.toNat - 1, by omega⟩
  unfold Inner.run
  rw [hk]
  exact ((Problem.advance_raises hK (s := .start x y) hy).bind _).bind _

variable {sched : Schedule (World σ R) R κ α}

theorem Schedule.restart_raises (hK : sched.K.TakesBack n) (hk : 1 ≤ sched.kIter)
    {state : RestartState R κ α} (hy : state.y.size ≠ n) (al : R) (offset : ℤ) :
    (sched.restart state al offset).Raises := by
  apply World.raises_bind
  intro _ step _ _
  apply World.raises_bind
  intro _ type _ _
  exact (Inner.run_raises (p := sched.problem al step) hK hk _ hy).bind _

theorem Solver.restarts_raise (env : Environment (World σ R) R κ α) (hK : sched.K.TakesBack n)
    (hk : 1 ≤ sched.kIter) {state : RestartState R κ α} (hy : state.y.size ≠ n) (k j : ℕ) :
    (restarts env sched (k + 1) j state).Raises := by
  rw [restarts_succ]
  apply World.raises_bind
  intro _ al _ _
  apply World.raises_bind
  intro _ _ _ _
  exact (Schedule.restart_raises hK hk hy al _).bind _

end Runs

namespace Solver

/-- **A dual start of the wrong length is never accepted.**  The run raises a failure, in any
arithmetic and whatever the caller's maps do; and the prepared operator takes back no
vector of any other length than that of measurements and analysis block together. -/
theorem wrong_dual_start_raises {env : Environment (World σ R) R κ α}
    {r : Request (World σ R) R κ α} {settings : Settings (World σ R) R κ α}
    (hsettings : settings.check = .ok r.options) {y0 : Tensor κ α} (hy0 : r.y0 = some y0)
    (hlength : y0.size ≠ r.b.size + r.options.q) :
    (∀ s, ∃ e t, (solve env r).play s = (.error e, t))
      ∧ ∀ s ready t, (prepare env r).play s = (.ok ready, t) →
        ∀ y, y.size ≠ r.b.size + r.options.q →
          ∀ u, ∃ e v, (ready.schedule.K.adjoint y).play u = (.error e, v) := by
  have hq := settings.check_analysis hsettings
  constructor
  · show (solve env r).Raises
    rw [solve_carryOut]
    apply World.raises_bind
    intro s ready t hready
    obtain ⟨hK, hstart, hkIter⟩ := prepare_dual hready hq
    obtain ⟨hn, hk⟩ := prepare_play_counts hready
    have hy : ready.start.y.size ≠ r.b.size + r.options.q := by
      rw [hstart y0 hy0]
      exact hlength
    obtain ⟨k, hcount⟩ : ∃ k, r.nIter.toNat = k + 1 := ⟨r.nIter.toNat - 1, by omega⟩
    -- Announcing comes first; whether it returns or not, the restarts raise.
    apply World.raises_bind
    intro _ _ _ _
    rw [hcount]
    exact (restarts_raise env hK (by omega) hy k 0).bind _
  · intro s ready t hready y hy
    exact (prepare_dual hready hq).1.raises hy

/-- Two measurements and an analysis block of four entries.  The start has three entries, so
it is cut one entry before its end, and its first block has the length of the measurements. -/
noncomputable def shortStart : Request (World Unit ℝ) ℝ Unit ℝ where
  A := .operator .identity
  b := tabulate () [2] fun _ => 1
  epsilon := 0
  delta := 0
  prox x _ := pure x
  x0 := some (zeros () [2])
  y0 := some (zeros () [3])
  nIter := 1
  kIter := 1
  options := {
    C1 := 1
    C2 := 1
    store := false
    outputType := .last
    upsilon := 2⁻¹
    bound := some 2
    tau := 1
    display := false
    error := none
    analysis := some (.operator (.stacked .identity .identity (.whole 2)))
    q := 4 }
  callback := none

theorem shortStart_check : shortStart.options.settings.check = .ok shortStart.options := by
  have hvalid : shortStart.options.Valid := {
    C1_pos := one_pos
    C2_pos := one_pos
    upsilon_pos := show (0 : ℝ) < 2⁻¹ by norm_num
    upsilon_lt_one := show (2⁻¹ : ℝ) < 1 by norm_num
    tau_pos := one_pos
    bound_pos := by
      rintro _ ⟨⟩
      exact two_pos }
  exact hvalid.check ⟨fun h => (nomatch h), fun h => (nomatch h)⟩

/-- The start is refused although one of its blocks fits. -/
theorem wrong_dual_start_raises_short :
    shortStart.options.settings.check = .ok shortStart.options
      ∧ shortStart.y0 = some (zeros () [3])
      ∧ (zeros () [3] : Tensor Unit ℝ).size ≠ shortStart.b.size + shortStart.options.q
      ∧ ∃ e t, (solve ⟨fun shape kind => pure (zeros kind shape), fun _ => pure ()⟩
          shortStart).play () = (.error e, t) := by
  have hlength : (zeros () [3] : Tensor Unit ℝ).size
      ≠ shortStart.b.size + shortStart.options.q := by
    have hstart : (zeros () [3] : Tensor Unit ℝ).size = 3 := by
      unfold zeros
      rw [size_tabulate, List.prod_singleton]
    show _ ≠ _ + 4
    rw [hstart]
    omega
  refine ⟨shortStart_check, rfl, hlength, ?_⟩
  exact (wrong_dual_start_raises shortStart_check rfl hlength).1 ()

end Solver

end PrimalDual
