/-
  PrimalDual.Proofs.Run.DualBox
  ─────────────────────────────
  **THE DUAL BOX.**

  The last `q` entries of the dual variable belong to the analysis term, and
  the dual map moves each of them into the unit disc.  So however large the
  dual start is, they lie there

      after every step         `Problem.dualUpdate_box`
      in every average         `Inner.steps_box`
      after every restart      `Solver.restarts_box`

  and in the caller's units their magnitude is at most `‖b‖`.  Nothing is
  asked of the operators and of the regulariser: whatever they return, if the
  run returns, the shapes could be stretched to one another, and stretching
  keeps the last entries among the last entries.
-/
import PrimalDual.Proofs.Exact.Entries
import PrimalDual.Proofs.Inner.Inversion
import PrimalDual.Proofs.Prox.DualBounds
import PrimalDual.Proofs.Run.Returns

namespace PrimalDual

open Tensor Prox

variable {𝕜 : Type} [RCLike 𝕜]

/-! ## §1. The last entries of a tensor. -/

namespace Tensor

/-- The last `q` entries have magnitude at most `c`. -/
def TailLe (q : ℕ) (c : ℝ) (x : Tensor Unit 𝕜) : Prop :=
  ∀ i < x.size, x.size ≤ i + q → ‖x.entry i‖ ≤ c

/-- There are `q` last entries, unless there are no entries at all. -/
def HasTail (q : ℕ) (x : Tensor Unit 𝕜) : Prop := q ≤ x.size ∨ x.size = 0

omit [RCLike 𝕜] in
theorem HasTail.of_dvd {q : ℕ} {x y : Tensor Unit 𝕜} (h : HasTail q x) (hdvd : x.size ∣ y.size) :
    HasTail q y := by
  rcases Nat.eq_zero_or_pos y.size with hy | hy
  · exact Or.inr hy
  · refine Or.inl ?_
    have hle := Nat.le_of_dvd hy hdvd
    rcases h with h | h
    · omega
    · rw [h, Nat.zero_dvd] at hdvd
      omega

omit [RCLike 𝕜] in
theorem size_dvd_of_stretch {x y z : Tensor Unit 𝕜}
    (h : stretch x.shape y.shape = some z.shape) : x.size ∣ z.size ∧ y.size ∣ z.size := by
  obtain ⟨hx, hy⟩ := stretches_of_stretch h
  rw [size_eq, size_eq, size_eq]
  exact ⟨hx.prod_dvd, hy.prod_dvd⟩

/-- Sums of last entries are last entries of the sum. -/
theorem TailLe.add {q : ℕ} {c d : ℝ} {x y z : Tensor Unit 𝕜} (hx : x.TailLe q c)
    (hy : y.TailLe q d) (h : (x.add y : Except (Failure ℝ) _) = .ok z) : z.TailLe q (c + d) := by
  obtain ⟨hstretch, hentry⟩ := add_ok h
  obtain ⟨hxz, hyz⟩ := stretches_of_stretch hstretch
  intro i hi htail
  have hi' : i < z.shape.prod := by rwa [← size_eq]
  have hsx := source_tail hxz hi'
  have hsy := source_tail hyz hi'
  rw [← size_eq, ← size_eq] at hsx hsy
  rw [hentry i hi]
  refine (norm_add_le _ _).trans (add_le_add ?_ ?_)
  · refine hx _ ?_ (by omega)
    rw [size_eq]
    exact source_lt hxz hi'
  · refine hy _ ?_ (by omega)
    rw [size_eq]
    exact source_lt hyz hi'

theorem TailLe.scale {q : ℕ} {c r : ℝ} {x : Tensor Unit 𝕜} (h : x.TailLe q c) (hr : 0 ≤ r) :
    (scale r x).TailLe q (r * c) := by
  intro i hi htail
  rw [size_scale] at hi htail
  rw [entry_scale, norm_mul, RCLike.norm_ofReal, abs_of_nonneg hr]
  exact mul_le_mul_of_nonneg_left (h i hi htail) hr

theorem tailLe_zerosLike (q : ℕ) (x : Tensor Unit 𝕜) : x.zerosLike.TailLe q 0 := by
  intro i hi _
  rw [size_eq, shape_zerosLike] at hi
  rw [show x.zerosLike.entry i = _ from entry_tabulate _ _ _ hi, Entry.zero_exact, norm_zero]

end Tensor

/-! ## §2. Steps. -/

/-- The dual map moves the last entries into the unit disc. -/
theorem Prox.tailLe_dual {y z : Tensor Unit 𝕜} {ρ : ℝ} {q : ℕ} (hy : y.HasTail q)
    (h : dual y ρ (.whole q) = .ok z) : z.shape = y.shape ∧ z.TailLe q 1 := by
  rcases hy with hq | hempty
  · rw [← ofVec_vec (x := y) rfl, dual_ofVec ρ (by rwa [← size_eq])] at h
    cases h
    refine ⟨rfl, ?_⟩
    intro i hi htail
    rw [size_ofVec] at hi htail
    rw [entry_ofVec _ hi]
    exact inBox_dualMap _ _ _ ⟨i, hi⟩ htail
  · -- A tensor without entries keeps its shape, and so has none afterwards.
    have hshape := shape_dual h
    refine ⟨hshape, ?_⟩
    intro i hi
    rw [size_eq, hshape, ← size_eq] at hi
    omega

namespace Problem

variable {p : Problem (Except (Failure ℝ)) ℝ Unit 𝕜} {q : ℕ}

theorem dualUpdate_box (hq : p.q = .whole q) {y image y' : Tensor Unit 𝕜} (hy : y.HasTail q)
    (h : p.dualUpdate y image = .ok y') : y'.HasTail q ∧ y'.TailLe q 1 := by
  obtain ⟨moved, hmoved, h⟩ := bind_eq_ok.1 h
  obtain ⟨argument, hargument, h⟩ := bind_eq_ok.1 h
  rw [hq] at h
  have htail := (hy.of_dvd (size_dvd_of_stretch (add_ok hmoved).1).1).of_dvd
    (size_dvd_of_stretch (addMultiple_ok hargument).1).1
  obtain ⟨hshape, hbox⟩ := Prox.tailLe_dual htail h
  refine ⟨htail.of_dvd ?_, hbox⟩
  rw [size_eq, size_eq, hshape]

/-- After `n` steps the dual iterate is in the box, and so is the share of each step in the
sum. -/
structure InDualBox (q n : ℕ) (s : Iterate Unit 𝕜) : Prop where
  tail : s.y.HasTail q
  box : 0 < n → s.y.TailLe q 1
  sum : s.ySum.TailLe q n
  sum_tail : 0 < n → s.ySum.HasTail q

theorem inDualBox_start {x y : Tensor Unit 𝕜} (hy : y.HasTail q) :
    InDualBox q 0 (Iterate.start x y) where
  tail := hy
  box h := absurd h (lt_irrefl 0)
  sum := by
    rw [Nat.cast_zero]
    exact tailLe_zerosLike q y
  sum_tail h := absurd h (lt_irrefl 0)

/-- **One step moves the dual iterate into the box**, wherever it was before. -/
theorem inDualBox_advance (hq : p.q = .whole q) {n : ℕ} {s s' : Iterate Unit 𝕜}
    (hs : InDualBox q n s) (h : p.advance s = .ok s') : InDualBox q (n + 1) s' := by
  obtain ⟨_, _, _, image, _, _, _, _, _, hdual⟩ := advance_ok h
  obtain ⟨-, hsum⟩ := advance_sums h
  obtain ⟨htail, hbox⟩ := dualUpdate_box hq hs.tail hdual
  refine ⟨htail, fun _ => hbox, ?_, fun _ => ?_⟩
  · rw [Nat.cast_succ]
    exact hs.sum.add hbox hsum
  · exact htail.of_dvd (size_dvd_of_stretch (add_ok hsum).1).2

end Problem

namespace Inner

variable {p : Problem (Except (Failure ℝ)) ℝ Unit 𝕜} {o : Observer (Except (Failure ℝ)) ℝ Unit 𝕜}
variable {q : ℕ}

/-- Steps keep the dual iterate in the box. -/
theorem steps_box (hq : p.q = .whole q) {n k : ℕ} {s final : Iterate Unit 𝕜}
    {records : List (Record ℝ Unit 𝕜)} (hs : Problem.InDualBox q k s)
    (h : steps p o n k s = .ok (final, records)) : Problem.InDualBox q (k + n) final := by
  induction n generalizing k s records with
  | zero =>
    cases h
    exact hs
  | succ n ih =>
    obtain ⟨next, hnext, h⟩ := bind_eq_ok.1 h
    obtain ⟨record, -, h⟩ := bind_eq_ok.1 h
    obtain ⟨⟨final', rest⟩, hrest, h⟩ := bind_eq_ok.1 h
    cases h
    have hfinal := ih (Problem.inDualBox_advance hq hs hnext) hrest
    rwa [Nat.add_assoc, Nat.add_comm 1 n] at hfinal

/-- The last entries of the dual result, whether it is the last iterate or the average. -/
theorem result_box {type : OutputType} {kIter : ℤ} (hk : 1 ≤ kIter) {s : Iterate Unit 𝕜}
    (hs : Problem.InDualBox q kIter.toNat s) (records : List (Record ℝ Unit 𝕜)) :
    (result type kIter s records).y.HasTail q ∧ (result type kIter s records).y.TailLe q 1 := by
  have hpos : 0 < kIter.toNat := by omega
  have hcount : (kIter : ℝ) = kIter.toNat := cast_eq_toNat (by omega)
  unfold result
  by_cases haverage : type.averagesDual = true
  · rw [if_pos haverage]
    refine ⟨?_, ?_⟩
    · have htail := hs.sum_tail hpos
      unfold HasTail at htail ⊢
      rwa [size_divBy]
    · have hn : (0 : ℝ) < kIter.toNat := Nat.cast_pos.2 hpos
      have hbox := hs.sum.scale (inv_nonneg.2 hn.le)
      rwa [inv_mul_cancel₀ hn.ne', ← divBy_eq_scale, ← hcount] at hbox
  · rw [if_neg haverage]
    exact ⟨hs.tail, hs.box hpos⟩

/-- **The dual result of a run of steps is in the box.** -/
theorem run_box (hq : p.q = .whole q) {kIter : ℤ} (hk : 1 ≤ kIter) {x y : Tensor Unit 𝕜}
    (hy : y.HasTail q) {r : InnerResult ℝ Unit 𝕜} (h : run p o kIter x y = .ok r) :
    r.y.HasTail q ∧ r.y.TailLe q 1 := by
  obtain ⟨⟨final, records⟩, hsteps, h⟩ := bind_eq_ok.1 h
  cases h
  have hfinal := steps_box hq (Problem.inDualBox_start hy) hsteps
  rw [Nat.zero_add] at hfinal
  exact result_box hk hfinal records

end Inner

/-! ## §3. Restarts. -/

namespace Schedule

variable {s : Schedule (Except (Failure ℝ)) ℝ Unit 𝕜}

theorem restart_box (hk : 1 ≤ s.kIter) {state : RestartState ℝ Unit 𝕜} {al : ℝ} {offset : ℤ}
    {out : RestartState ℝ Unit 𝕜 × RestartRecord ℝ Unit 𝕜} (hy : state.y.HasTail s.options.q)
    (h : s.restart state al offset = .ok out) :
    out.1.y.HasTail s.options.q ∧ out.1.y.TailLe s.options.q 1 := by
  obtain ⟨step, -, h⟩ := bind_eq_ok.1 h
  obtain ⟨type, -, h⟩ := bind_eq_ok.1 h
  obtain ⟨r, hr, h⟩ := bind_eq_ok.1 h
  cases h
  exact Inner.run_box (p := s.problem al step) rfl hk hy hr

end Schedule

namespace Solver

variable {env : Environment (Except (Failure ℝ)) ℝ Unit 𝕜}
variable {s : Schedule (Except (Failure ℝ)) ℝ Unit 𝕜}
variable {r : Request (Except (Failure ℝ)) ℝ Unit 𝕜}

/-- **Every restart leaves the dual state in the box.** -/
theorem restarts_box (hk : 1 ≤ s.kIter) {n j : ℕ} {state final : RestartState ℝ Unit 𝕜}
    {trail : Trail ℝ Unit 𝕜} (hy : state.y.HasTail s.options.q)
    (h : restarts env s (n + 1) j state = .ok (final, trail)) :
    final.y.TailLe s.options.q 1 := by
  induction n generalizing j state trail with
  | zero =>
    obtain ⟨al, next, record, later, -, -, hout, hlater, -⟩ := restarts_succ_ok h
    cases hlater
    exact (Schedule.restart_box hk hy hout).2
  | succ n ih =>
    obtain ⟨al, next, record, later, -, -, hout, hlater, -⟩ := restarts_succ_ok h
    exact ih (Schedule.restart_box hk hy hout).1 hlater

/-- With an analysis operator, the dual start has its last `q` entries, and the scale is the
norm of the measurements. -/
theorem prepare_box {ready : Prepared (Except (Failure ℝ)) ℝ Unit 𝕜}
    (hB : r.options.analysis.isSome) (hy : ∀ y ∈ r.y0, y.size = r.b.size + r.options.q)
    (h : prepare env r = .ok ready) :
    ready.schedule.options.q = r.options.q ∧ ready.start.y.HasTail r.options.q
      ∧ r.b.normValue = .ok ready.schedule.scale := by
  obtain ⟨K, x0, ⟨K', b'⟩, o, -, -, -, hstacked, ho, hready⟩ := prepare_eq_ok.1 h
  obtain ⟨analysis, hanalysis⟩ := Option.isSome_iff_exists.1 hB
  rw [hanalysis] at hstacked
  obtain ⟨B, image, -, -, -, hb'⟩ := stackAnalysis_eq_ok.1 hstacked
  obtain ⟨hshape, hnorm⟩ := append_zeros_ok (shape_flatten r.b) hb'
  obtain ⟨bound, rfl⟩ := ensureBound_ok ho
  obtain ⟨scale, epsilon, delta, length, hscale, -, -, -, -, rfl⟩ := normalise_eq_ok.1 hready
  -- A start that is not given consists of zeros in the shape of the padded measurements.
  refine ⟨rfl, ?_, ?_⟩
  · refine Or.inl ?_
    show r.options.q ≤ ((r.y0.getD b'.zerosLike).flatten.divBy scale).size
    rw [size_divBy, size_flatten]
    cases hy0 : r.y0 with
    | none =>
      rw [Option.getD_none, size_eq, shape_zerosLike, hshape, List.prod_singleton]
      omega
    | some y =>
      have hsize := hy y hy0
      rw [Option.getD_some]
      omega
  · rw [← normValue_flatten, ← hnorm]
    exact hscale

end Solver

/-- **The dual box.**  In a run with an analysis operator, every restart leaves the last `q`
entries of the dual state with magnitudes at most 1, so those of the solution are at most
`‖b‖`.  The same holds of the dual result of any run of inner steps, with the bound 1. -/
theorem Solver.dual_box :
    (∀ (env : Environment (Except (Failure ℝ)) ℝ Unit 𝕜)
        (r : Request (Except (Failure ℝ)) ℝ Unit 𝕜) (sol : Solution (Except (Failure ℝ)) ℝ Unit 𝕜),
      r.options.analysis.isSome → (∀ y ∈ r.y0, y.size = r.b.size + r.options.q) →
      solve env r = .ok sol →
        (∃ ready, prepare env r = .ok ready ∧ ∀ j < r.nIter.toNat, ∃ state trail,
          restarts env ready.schedule (j + 1) 0 ready.start = .ok (state, trail)
            ∧ state.y.TailLe r.options.q 1)
        ∧ r.b.normValue = .ok sol.scale ∧ sol.y.TailLe r.options.q sol.scale)
    ∧ ∀ (p : Problem (Except (Failure ℝ)) ℝ Unit 𝕜) (o : Observer (Except (Failure ℝ)) ℝ Unit 𝕜)
        (q : ℕ) (kIter : ℤ) (x y : Tensor Unit 𝕜) (out : InnerResult ℝ Unit 𝕜),
      p.q = .whole q → 1 ≤ kIter → y.HasTail q → Inner.run p o kIter x y = .ok out →
        out.y.TailLe q 1 := by
  constructor
  · intro env r sol hB hy h
    obtain ⟨ready, final, trail, hready, hrestarts, rfl⟩ := solve_stages h
    obtain ⟨hn, hk⟩ := prepare_counts hready
    obtain ⟨hkIter, -⟩ := prepare_schedule hready
    obtain ⟨hq, htail, hscale⟩ := prepare_box hB hy hready
    have hscale_nonneg : 0 ≤ ready.schedule.scale := by
      rw [normValue_eq] at hscale
      rw [← Except.ok.inj hscale]
      exact Real.sqrt_nonneg _
    have hbox : ∀ {n : ℕ} {state : RestartState ℝ Unit 𝕜} {trail : Trail ℝ Unit 𝕜},
        restarts env ready.schedule (n + 1) 0 ready.start = .ok (state, trail) →
          state.y.TailLe r.options.q 1 := by
      intro n state trail h
      rw [← hq] at htail ⊢
      exact restarts_box (by rw [hkIter]; exact hk) htail h
    refine ⟨⟨ready, hready, ?_⟩, hscale, ?_⟩
    -- The run has passed through the runs of its first restarts.
    · intro j hj
      obtain ⟨m, hm⟩ : ∃ m, r.nIter.toNat = j + 1 + m := ⟨r.nIter.toNat - (j + 1), by omega⟩
      rw [hm] at hrestarts
      obtain ⟨state, first, -, hfirst, -⟩ := restarts_split hrestarts
      exact ⟨state, first, hfirst, hbox hfirst⟩
    · obtain ⟨n, hn'⟩ : ∃ n, r.nIter.toNat = n + 1 := ⟨r.nIter.toNat - 1, by omega⟩
      rw [hn'] at hrestarts
      have hfinal := (hbox hrestarts).scale hscale_nonneg
      rwa [mul_one] at hfinal
  · intro p o q kIter x y out hq hk hy h
    exact (Inner.run_box hq hk hy h).2

/-- A request and a run of steps whose dual starts lie outside the box. -/
theorem Solver.dual_box_unit :
    (∃ sol, solve quietEnvironment unitRequest = .ok sol
      ∧ (∃ ready, prepare quietEnvironment unitRequest = .ok ready ∧ ∀ j < 2, ∃ state trail,
          restarts quietEnvironment ready.schedule (j + 1) 0 ready.start = .ok (state, trail)
            ∧ state.y.TailLe 1 1)
      ∧ unitRequest.b.normValue = .ok sol.scale ∧ sol.y.TailLe 1 sol.scale)
    ∧ ∃ out, Inner.run ⟨ofVec [1 + 1] (pair 1 0), .stacked .identity .identity (.whole 1), 1, 1, 1,
          Regulariser.prox .zero, .whole 1⟩ (Observer.silent .averaged) 3 (ofVec [1] (single 7))
          (ofVec [1 + 1] (pair 9 9)) = .ok out
      ∧ out.y.TailLe 1 1 := by
  constructor
  · obtain ⟨sol, hsol⟩ := solve_unit
    refine ⟨sol, hsol, dual_box.1 quietEnvironment unitRequest sol rfl ?_ hsol⟩
    intro y hy
    cases hy
    rfl
  · have hprox : ∀ v : Space ℝ [1], (Regulariser.prox .zero (ofVec [1] v) (1 : ℝ)
        : Except (Failure ℝ) _) = .ok (ofVec [1] (id v)) := fun _ => rfl
    have hfollowed := acts_twice.followed hprox (pair 1 0) 1 1
      (show 1 ≤ [1 + 1].prod by decide)
    obtain ⟨out, hout⟩ := hfollowed.run_returns (Observer.silent_faultless .averaged) (single 7)
      (pair 9 9) 3
    exact ⟨out, hout, dual_box.2 _ _ 1 3 _ _ out rfl (by norm_num) (Or.inl (by decide)) hout⟩

end PrimalDual
