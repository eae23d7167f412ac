/-
  PrimalDual.Proofs.Run.FewerRestarts
  ───────────────────────────────────
  **RUNS WITH FEWER RESTARTS.**

  The number of restarts says when a run ends and nothing else.  It is
  checked when the request is made ready and then read no more
  (`prepare_restarting`), the course of fewer restarts is a beginning of the
  course (`course_split`), and so are its records (`records_take`).  So a run
  that returns has gone through every run with fewer restarts, and what these
  leave behind are the beginnings of what it leaves behind
  (`fewer_restarts`).
-/
import PrimalDual.Proofs.Run.Recorded

namespace PrimalDual

variable {m : Type → Type} {R κ α : Type}

/-- The request for another number of restarts. -/
def Request.restarting (r : Request m R κ α) (n : ℤ) : Request m R κ α := { r with nIter := n }

variable [Control R] [Kinds κ] [Entry α R κ]

/-! ## §1. Records and calls. -/

/-- Without a callback nothing is shown of a path. -/
theorem Observer.callsAlong_unshown {o : Observer (Except (Failure R)) R κ α}
    (h : o.callback = none) (path : List (Iterate κ α)) (k : ℕ) :
    (o.callsAlong k path).filterMap Call.shown? = [] := by
  induction path generalizing k with
  | nil => rfl
  | cons s path ih =>
    have hcalls : (o.calls (k + 1) s).filterMap Call.shown? = [] := by
      unfold calls
      rw [h]
      cases o.error.isSome <;> rfl
    unfold callsAlong
    rw [List.filterMap_append, hcalls, ih]
    rfl

namespace Schedule

variable {s : Schedule (Except (Failure R)) R κ α}

/-- The records of the first legs. -/
theorem records_take {legs : List (Leg R κ α)} {j : ℕ} {records : List (RestartRecord R κ α)}
    (h : s.records j legs = .ok records) (n : ℕ) :
    s.records j (legs.take n) = .ok (records.take n) := by
  induction legs generalizing j records n with
  | nil =>
    cases h
    rw [List.take_nil, List.take_nil]
    rfl
  | cons leg legs ih =>
    obtain ⟨record, later, hrecord, hlater, rfl⟩ := records_cons_ok h
    cases n with
    | zero => rfl
    | succ n => exact records_cons hrecord (ih hlater n)

/-- The records of the legs after the first ones. -/
theorem records_drop {legs : List (Leg R κ α)} {j : ℕ} {records : List (RestartRecord R κ α)}
    (h : s.records j legs = .ok records) (n : ℕ) :
    s.records (j + n) (legs.drop n) = .ok (records.drop n) := by
  induction n generalizing j legs records with
  | zero => exact h
  | succ n ih =>
    cases legs with
    | nil =>
      cases h
      rfl
    | cons leg legs =>
      obtain ⟨record, later, -, hlater, rfl⟩ := records_cons_ok h
      rw [Nat.add_comm n 1, ← Nat.add_assoc, Nat.add_comm 1 n]
      exact ih hlater

variable {n₁ n₂ : ℕ} {state : RestartState R κ α} {legs : List (Leg R κ α)}

/-- The errors of the first restarts are the first errors. -/
theorem errors_take (hlegs : s.course (n₁ + n₂) state = .ok legs) {j : ℕ}
    {records : List (RestartRecord R κ α)} (h : s.records j legs = .ok records) :
    (records.take n₁).flatMap RestartRecord.errors
      = (records.flatMap RestartRecord.errors).take (n₁ * s.kIter.toNat) := by
  cases hf : s.options.error with
  | none =>
    rw [records_unmeasured hf h, records_unmeasured hf (records_take h n₁), List.take_nil]
  | some f =>
    have hlength : ((records.take n₁).flatMap RestartRecord.errors).length = n₁ * s.kIter.toNat := by
      rw [← (records_errors hf (records_take h n₁)).length_eq, ← List.flatMap_def,
        length_flatMap_course length_stored (course_split hlegs).1]
    rw [← hlength, ← List.prefix_iff_eq_take]
    refine ⟨(records.drop n₁).flatMap RestartRecord.errors, ?_⟩
    rw [← List.flatMap_append, List.take_append_drop]

/-- The calls of the first restarts are the first calls. -/
theorem calls_take_isPrefix (s : Schedule (Except (Failure R)) R κ α) (n j : ℕ)
    (legs : List (Leg R κ α)) : s.calls j (legs.take n) <+: s.calls j legs := by
  induction legs generalizing j n with
  | nil => rw [List.take_nil]
  | cons leg legs ih =>
    cases n with
    | zero => exact List.nil_prefix
    | succ n => exact (List.prefix_append_right_inj _).2 (ih n (j + 1))

/-- Without a callback nothing is shown. -/
theorem calls_unshown (h : s.callback = none) (j : ℕ) :
    (s.calls j legs).filterMap Call.shown? = [] := by
  induction legs generalizing j with
  | nil => rfl
  | cons leg legs ih =>
    unfold calls
    rw [List.filterMap_append, ih, List.append_nil]
    exact Observer.callsAlong_unshown (o := s.observer leg.al leg.type (j * s.kIter)) h leg.path 0

/-- What is shown of the first restarts is shown first. -/
theorem shown_take (hlegs : s.course (n₁ + n₂) state = .ok legs) (hk : 0 ≤ s.kIter) :
    (s.calls 0 (legs.take n₁)).filterMap Call.shown?
      = ((s.calls 0 legs).filterMap Call.shown?).take (n₁ * s.kIter.toNat) := by
  cases hf : s.callback with
  | none => rw [calls_unshown hf, calls_unshown hf, List.take_nil]
  | some f =>
    have hfirst := (course_split hlegs).1
    -- A prefix of the right length is what is taken.
    have hlength : ((s.calls 0 (legs.take n₁)).filterMap Call.shown?).length
        = n₁ * s.kIter.toNat := by
      rw [calls_numbered (by rw [hf]; rfl) hk (fun leg => length_of_mem hfirst), List.length_mapIdx,
        length_flatMap_course length_displayed hfirst]
    rw [← hlength, ← List.prefix_iff_eq_take]
    exact (calls_take_isPrefix s n₁ 0 legs).filterMap _

end Schedule

/-! ## §2. Preparation. -/

namespace Solver

variable {env : Environment (Except (Failure R)) R κ α} {r : Request (Except (Failure R)) R κ α}

/-- The number of restarts is checked, and then it is not read. -/
theorem prepare_restarting {ready : Prepared (Except (Failure R)) R κ α}
    (h : prepare env r = .ok ready) {n : ℤ} (hn : 1 ≤ n) :
    prepare env (r.restarting n) = .ok ready := by
  obtain ⟨K, x0, stacked, o, hcheck, hrest⟩ := prepare_eq_ok.1 h
  refine prepare_eq_ok.2 ⟨K, x0, stacked, o, ?_, hrest⟩
  obtain ⟨hcounts, hcheck⟩ := guard_ok hcheck
  obtain ⟨-, hk⟩ := Bool.or_eq_false_iff.1 hcounts
  have hcounts' : (decide (n < 1) || decide (r.kIter < 1)) = false := by
    rw [hk, decide_eq_false (by omega)]
    rfl
  unfold checkRequest
  exact (if_neg (Bool.eq_false_iff.1 hcounts')).trans hcheck

/-! ## §3. Runs. -/

/-- **A run that returns has gone through the runs with fewer restarts.**  Their histories,
iterates, errors and calls are the beginnings of its own. -/
theorem fewer_restarts (henv : env.Receptive) {n₁ n₂ : ℤ} (hn₁ : 1 ≤ n₁) (hn₂ : 1 ≤ n₂)
    {sol : Solution (Watched R κ α) R κ α} {calls : List (Call κ α)}
    (h : watch env (r.restarting (n₁ + n₂)) = .ok (sol, calls)) :
    ∃ sol₁ calls₁, watch env (r.restarting n₁) = .ok (sol₁, calls₁)
      ∧ sol₁.alHistory = sol.alHistory.take n₁.toNat
      ∧ sol₁.epsHistory = sol.epsHistory.take n₁.toNat
      ∧ sol₁.iterates = sol.iterates.take n₁.toNat
      ∧ sol₁.errors = sol.errors.take (n₁.toNat * r.kIter.toNat)
      ∧ calls₁.filterMap Call.shown?
        = (calls.filterMap Call.shown?).take (n₁.toNat * r.kIter.toNat) := by
  obtain ⟨ready, legs, records, hready, hlegs, hrecords, rfl, rfl⟩ := watch_ok env h
  have hready₁ : prepare env (r.restarting n₁) = .ok ready :=
    prepare_restarting (r := r.restarting (n₁ + n₂)) hready hn₁
  obtain ⟨hkIter, -, hcallback, ⟨L, hoptions⟩, -⟩ := prepare_schedule hready₁
  replace hkIter : ready.schedule.kIter = r.kIter := hkIter
  obtain ⟨-, hk⟩ := prepare_counts hready₁
  replace hk : 1 ≤ r.kIter := hk
  have hsum : (r.restarting (n₁ + n₂)).nIter.toNat = n₁.toNat + n₂.toNat :=
    Int.toNat_add (by omega) (by omega)
  rw [hsum] at hlegs
  -- The shorter run takes the first legs of the longer one, and the records of these.
  have hlegs₁ := (Schedule.course_split hlegs).1
  have hrecords₁ := Schedule.records_take hrecords n₁.toNat
  refine ⟨_, _, watch_of_course henv hready₁ hlegs₁ hrecords₁, List.map_take, List.map_take,
    ?_, ?_, ?_⟩
  · show (if ready.schedule.options.store then (records.take n₁.toNat).map RestartRecord.iterates
      else []) = List.take n₁.toNat
        (if ready.schedule.options.store then records.map RestartRecord.iterates else [])
    split
    · exact List.map_take
    · exact List.take_nil.symm
  · rw [← hkIter]
    exact Schedule.errors_take hlegs hrecords
  · rw [← hkIter]
    exact Schedule.shown_take hlegs (by omega)

end Solver

end PrimalDual
