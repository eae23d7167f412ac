/-
  PrimalDual.Proofs.Run.Recorded
  ──────────────────────────────
  **RUNS THAT RECORD EVERYTHING.**

  A request may leave its iterates unstored and unshown.  The request that
  stores and shows all of them is prepared in the same way
  (`prepare_recorded`) and has the same course (`course_recorded`), so the
  records of the one are those of the other where both keep any.

  Along a course every record is known by its restart and its step: what is
  stored (`recordsAlong_snapshots`), what is measured (`recordsAlong_errors`)
  and what is shown (`callsAlong_shown`).
-/
import PrimalDual.Proofs.Run.Preparation
import PrimalDual.Proofs.Run.Watch

namespace PrimalDual

/-! ## §1. Recorded requests. -/

variable {R κ α : Type}

/-- The request with every iterate stored and shown. -/
def Request.recorded (r : Request (Except (Failure R)) R κ α) :
    Request (Except (Failure R)) R κ α :=
  { r with
    options := { r.options with store := true }
    callback := some (r.callback.getD fun _ _ => .ok ()) }

/-- The schedule with every iterate stored and shown. -/
def Schedule.recorded (s : Schedule (Except (Failure R)) R κ α) :
    Schedule (Except (Failure R)) R κ α :=
  { s with
    options := { s.options with store := true }
    callback := some (s.callback.getD fun _ _ => .ok ()) }

/-- The observer by which every iterate is stored and shown. -/
def Observer.recorded (o : Observer (Except (Failure R)) R κ α) :
    Observer (Except (Failure R)) R κ α :=
  { o with
    store := true
    callback := some (o.callback.getD fun _ _ => .ok ()) }

/-- Number and iterate that a call of the callback showed. -/
def Call.shown? : Call κ α → Option (ℤ × Tensor κ α)
  | .measured _ => none
  | .shown k x => some (k, x)

variable [Control R] [Kinds κ] [Entry α R κ]

/-- A recorded request is made ready as the request itself. -/
theorem Solver.prepare_recorded {env : Environment (Except (Failure R)) R κ α}
    {r : Request (Except (Failure R)) R κ α} {ready : Prepared (Except (Failure R)) R κ α}
    (h : prepare env r = .ok ready) :
    prepare env r.recorded = .ok ⟨ready.schedule.recorded, ready.start⟩ := by
  obtain ⟨K, x0, stacked, o, hcheck, hK, hx0, hstacked, ho, hready⟩ := prepare_eq_ok.1 h
  have ho' : ensureBound env stacked.1 x0 r.recorded.options = .ok { o with store := true } := by
    cases hbound : r.options.bound with
    | some bound =>
      rw [ensureBound_some env _ _ hbound] at ho
      rw [ensureBound_some env _ _ (o := r.recorded.options) hbound]
      cases ho
      rfl
    | none =>
      rw [ensureBound_none env _ _ hbound] at ho
      rw [ensureBound_none env _ _ (o := r.recorded.options) hbound]
      obtain ⟨u, hbegin, ho⟩ := bind_eq_ok.1 ho
      obtain ⟨bound, hestimate, ho⟩ := bind_eq_ok.1 ho
      obtain ⟨o', hchange, ho⟩ := bind_eq_ok.1 ho
      obtain ⟨v, hend, ho⟩ := bind_eq_ok.1 ho
      cases ho
      -- The checks that the new bound has to pass do not look at the store.
      obtain ⟨hsharpness, hrate, htau, hnonzero, hsome, hnone, rfl⟩ :=
        Options.change_bound_eq_ok.1 hchange
      have hstored : r.recorded.options.change (fun s => { s with bound := some bound })
          = .ok { r.options with bound := some bound, store := true } :=
        Options.change_bound_eq_ok.2 ⟨hsharpness, hrate, htau, hnonzero, hsome, hnone, rfl⟩
      apply bind_returns hbegin
      apply bind_returns hestimate
      apply bind_returns hstored
      apply bind_returns hend
      rfl
  obtain ⟨scale, epsilon, delta, length, hscale, hzero, hepsilon, hdelta, hlength, rfl⟩ :=
    normalise_eq_ok.1 hready
  rw [prepare_eq_ok]
  refine ⟨K, x0, stacked, { o with store := true }, hcheck, hK, hx0, hstacked, ho', ?_⟩
  rw [normalise_eq_ok]
  exact ⟨scale, epsilon, delta, length, hscale, hzero, hepsilon, hdelta, hlength, rfl⟩

/-! ## §2. Records along a path. -/

namespace Observer

variable {o : Observer (Except (Failure R)) R κ α}

/-- A recorded observation keeps its snapshot and measures what it measured. -/
theorem observe_recorded {k : ℕ} {s : Iterate κ α} {record : Record R κ α}
    (h : o.observe k s = .ok record) :
    o.recorded.observe k s = .ok ⟨some (o.snapshot k s), record.error⟩ := by
  obtain ⟨hmeasured, hpresented, -⟩ := observe_ok h
  -- A callback is called as before, and where there was none the new one accepts everything.
  have hpresented' : o.recorded.presented k s = .ok () := by
    have hrecorded : o.recorded.callback = some (o.callback.getD fun _ _ => .ok ()) := rfl
    rw [presented_some hrecorded]
    cases hf : o.callback with
    | none => rfl
    | some f =>
      rw [presented_some hf] at hpresented
      exact hpresented
  exact observe_of_parts (o := o.recorded) hmeasured hpresented'

/-- The errors along a path are the same when it is recorded. -/
theorem recordsAlong_recorded {path : List (Iterate κ α)} {k : ℕ} {records : List (Record R κ α)}
    (h : o.recordsAlong k path = .ok records) :
    ∃ records', o.recorded.recordsAlong k path = .ok records'
      ∧ records'.filterMap Record.error = records.filterMap Record.error := by
  induction path generalizing k records with
  | nil =>
    cases h
    exact ⟨[], rfl, rfl⟩
  | cons s path ih =>
    obtain ⟨record, later, hrecord, hlater, rfl⟩ := recordsAlong_cons_ok h
    obtain ⟨later', hlater', herrors⟩ := ih hlater
    refine ⟨_, recordsAlong_cons (observe_recorded hrecord) hlater', ?_⟩
    rw [List.filterMap_cons, List.filterMap_cons, herrors]

/-- What is recorded along a path. -/
def snapshots (o : Observer (Except (Failure R)) R κ α) (path : List (Iterate κ α)) (k : ℕ) :
    List (Tensor κ α) :=
  path.mapIdx fun i s => o.snapshot (k + i + 1) s

theorem snapshots_cons (s : Iterate κ α) (path : List (Iterate κ α)) (k : ℕ) :
    o.snapshots (s :: path) k = o.snapshot (k + 1) s :: o.snapshots path (k + 1) := by
  unfold snapshots
  rw [List.mapIdx_cons]
  refine congrArg (_ :: ·) (congrArg (List.mapIdx · path) ?_)
  funext i s
  rw [show k + (i + 1) + 1 = k + 1 + i + 1 by omega]

/-- What is stored along a path are its snapshots, or nothing. -/
theorem recordsAlong_snapshots {path : List (Iterate κ α)} {k : ℕ} {records : List (Record R κ α)}
    (h : o.recordsAlong k path = .ok records) :
    records.filterMap Record.snapshot = if o.store then o.snapshots path k else [] := by
  induction path generalizing k records with
  | nil =>
    cases h
    cases o.store <;> rfl
  | cons s path ih =>
    obtain ⟨record, later, hrecord, hlater, rfl⟩ := recordsAlong_cons_ok h
    obtain ⟨-, -, hsnapshot⟩ := observe_ok hrecord
    rw [List.filterMap_cons, hsnapshot, ih hlater, snapshots_cons]
    cases o.store <;> rfl

/-- The errors along a path are those of what is recorded along it. -/
theorem recordsAlong_errors {path : List (Iterate κ α)} {k : ℕ} {records : List (Record R κ α)}
    (h : o.recordsAlong k path = .ok records) {f : Tensor κ α → Except (Failure R) R}
    (hf : o.error = some f) :
    List.Forall₂ (fun x e => f x = .ok e) ((o.snapshots path k).map (Tensor.scale o.scale))
      (records.filterMap Record.error) := by
  induction path generalizing k records with
  | nil =>
    cases h
    exact .nil
  | cons s path ih =>
    obtain ⟨record, later, hrecord, hlater, rfl⟩ := recordsAlong_cons_ok h
    obtain ⟨hmeasured, -, -⟩ := observe_ok hrecord
    rw [measured_some hf] at hmeasured
    obtain ⟨value, hvalue, herror⟩ := map_eq_ok.1 hmeasured
    rw [snapshots_cons, List.map_cons, List.filterMap_cons, ← herror]
    exact .cons hvalue (ih hlater)

/-- Without a measure of error there are no errors. -/
theorem recordsAlong_unmeasured {path : List (Iterate κ α)} {k : ℕ} {records : List (Record R κ α)}
    (h : o.recordsAlong k path = .ok records) (hf : o.error = none) :
    records.filterMap Record.error = [] := by
  induction path generalizing k records with
  | nil =>
    cases h
    rfl
  | cons s path ih =>
    obtain ⟨record, later, hrecord, hlater, rfl⟩ := recordsAlong_cons_ok h
    obtain ⟨hmeasured, -, -⟩ := observe_ok hrecord
    rw [measured_none hf] at hmeasured
    rw [List.filterMap_cons, ← Except.ok.inj hmeasured, ih hlater]

/-- The callback is shown the iterates of a path in their order. -/
theorem callsAlong_shown (hcallback : o.callback.isSome) (path : List (Iterate κ α)) (k : ℕ) :
    (o.callsAlong k path).filterMap Call.shown?
      = (path.map o.shown).mapIdx fun i x => (o.offset + (k + i + 1 : ℕ), x) := by
  induction path generalizing k with
  | nil => rfl
  | cons s path ih =>
    have hcalls : (o.calls (k + 1) s).filterMap Call.shown?
        = [(o.offset + (k + 1 : ℕ), o.shown s)] := by
      unfold calls
      rw [hcallback]
      cases o.error.isSome <;> rfl
    unfold callsAlong
    rw [List.filterMap_append, hcalls, ih, List.map_cons, List.mapIdx_cons, List.singleton_append]
    refine congrArg (_ :: ·) (congrArg (List.mapIdx · (path.map o.shown)) ?_)
    funext i x
    rw [show k + (i + 1) + 1 = k + 1 + i + 1 by omega]

end Observer

/-! ## §3. Records along a course. -/

namespace Schedule

variable {s : Schedule (Except (Failure R)) R κ α}

/-- What is stored of a restart, in the caller's units. -/
def stored (s : Schedule (Except (Failure R)) R κ α) (leg : Leg R κ α) : List (Tensor κ α) :=
  ((s.observer leg.al leg.type 0).snapshots leg.path 0).map (Tensor.scale s.scale)

/-- What is shown of a restart, in the caller's units. -/
def displayed (s : Schedule (Except (Failure R)) R κ α) (leg : Leg R κ α) : List (Tensor κ α) :=
  leg.path.map (s.observer leg.al leg.type 0).shown

theorem length_stored (leg : Leg R κ α) : (s.stored leg).length = leg.path.length := by
  unfold stored Observer.snapshots
  rw [List.length_map, List.length_mapIdx]

omit [Control R] in
theorem length_displayed (leg : Leg R κ α) : (s.displayed leg).length = leg.path.length :=
  List.length_map _

theorem getElem?_stored {leg : Leg R κ α} {i : ℕ} {it : Iterate κ α} (h : leg.path[i]? = some it) :
    (s.stored leg)[i]? = some (Tensor.scale s.scale
      ((s.observer leg.al leg.type 0).snapshot (i + 1) it)) := by
  unfold stored Observer.snapshots
  rw [List.getElem?_map, List.getElem?_mapIdx, h, Nat.zero_add]
  rfl

omit [Control R] in
theorem getElem?_displayed {leg : Leg R κ α} {i : ℕ} {it : Iterate κ α}
    (h : leg.path[i]? = some it) :
    (s.displayed leg)[i]? = some ((s.observer leg.al leg.type 0).shown it) := by
  unfold displayed
  rw [List.getElem?_map, h]
  rfl

/-- The restarts never read what is stored and shown of them. -/
theorem course_recorded (n : ℕ) (state : RestartState R κ α) :
    s.recorded.course n state = s.course n state := by
  induction n generalizing state with
  | zero => rfl
  | succ n ih =>
    unfold course
    simp only [ih]
    rfl

/-- The errors of restarts are the same when these are recorded. -/
theorem records_recorded {legs : List (Leg R κ α)} {j : ℕ}
    {records : List (RestartRecord R κ α)} (h : s.records j legs = .ok records) :
    ∃ records', s.recorded.records j legs = .ok records'
      ∧ records'.flatMap RestartRecord.errors = records.flatMap RestartRecord.errors := by
  induction legs generalizing j records with
  | nil =>
    cases h
    exact ⟨[], rfl, rfl⟩
  | cons leg legs ih =>
    obtain ⟨record, later, hrecord, hlater, rfl⟩ := records_cons_ok h
    obtain ⟨along, halong, rfl⟩ := record_ok hrecord
    obtain ⟨along', halong', herror⟩ := Observer.recordsAlong_recorded halong
    obtain ⟨later', hlater', herrors⟩ := ih hlater
    refine ⟨_, records_cons (record_of_along halong') hlater', ?_⟩
    rw [List.flatMap_cons, List.flatMap_cons, herrors, herror]

/-- What is stored of restarts, restart by restart. -/
theorem records_iterates (hstore : s.options.store = true) {legs : List (Leg R κ α)} {j : ℕ}
    {records : List (RestartRecord R κ α)} (h : s.records j legs = .ok records) :
    records.map RestartRecord.iterates = legs.map s.stored := by
  induction legs generalizing j records with
  | nil =>
    cases h
    rfl
  | cons leg legs ih =>
    obtain ⟨record, later, hrecord, hlater, rfl⟩ := records_cons_ok h
    obtain ⟨along, halong, rfl⟩ := record_ok hrecord
    have hsnapshots := Observer.recordsAlong_snapshots halong
    rw [show (s.observer leg.al leg.type (j * s.kIter)).store = true from hstore, if_pos rfl]
      at hsnapshots
    rw [List.map_cons, List.map_cons, ih hlater, hsnapshots]
    rfl

/-- The errors of a run are those of what it stores, or would store, in the same order. -/
theorem records_errors {f : Tensor κ α → Except (Failure R) R} (hf : s.options.error = some f)
    {legs : List (Leg R κ α)} {j : ℕ} {records : List (RestartRecord R κ α)}
    (h : s.records j legs = .ok records) :
    List.Forall₂ (fun x e => f x = .ok e) (legs.map s.stored).flatten
      (records.flatMap RestartRecord.errors) := by
  induction legs generalizing j records with
  | nil =>
    cases h
    exact .nil
  | cons leg legs ih =>
    obtain ⟨record, later, hrecord, hlater, rfl⟩ := records_cons_ok h
    obtain ⟨along, halong, rfl⟩ := record_ok hrecord
    rw [List.map_cons, List.flatten_cons, List.flatMap_cons]
    exact List.rel_append (Observer.recordsAlong_errors halong hf) (ih hlater)

theorem records_unmeasured (hf : s.options.error = none) {legs : List (Leg R κ α)} {j : ℕ}
    {records : List (RestartRecord R κ α)} (h : s.records j legs = .ok records) :
    records.flatMap RestartRecord.errors = [] := by
  induction legs generalizing j records with
  | nil =>
    cases h
    rfl
  | cons leg legs ih =>
    obtain ⟨record, later, hrecord, hlater, rfl⟩ := records_cons_ok h
    obtain ⟨along, halong, rfl⟩ := record_ok hrecord
    rw [List.flatMap_cons, ih hlater, Observer.recordsAlong_unmeasured halong hf, List.append_nil]

/-- The callback is shown the iterates of all restarts, numbered throughout. -/
theorem calls_shown (hcallback : s.callback.isSome) (legs : List (Leg R κ α)) (j : ℕ) :
    (s.calls j legs).filterMap Call.shown? = (legs.mapIdx fun l leg =>
      (s.displayed leg).mapIdx fun i x => ((j + l : ℕ) * s.kIter + (i + 1 : ℕ), x)).flatten := by
  induction legs generalizing j with
  | nil => rfl
  | cons leg legs ih =>
    unfold calls callsOf
    rw [List.filterMap_append, ih, List.mapIdx_cons, List.flatten_cons,
      Observer.callsAlong_shown (o := s.observer leg.al leg.type (j * s.kIter)) hcallback]
    refine congrArg₂ (· ++ ·) ?_ ?_
    · refine congrArg (List.mapIdx · (s.displayed leg)) ?_
      funext i x
      rw [Nat.zero_add, Nat.add_zero]
      rfl
    · refine congrArg List.flatten (congrArg (List.mapIdx · legs) ?_)
      funext l leg
      rw [show j + (l + 1) = j + 1 + l by omega]

/-- The callback is shown the iterates of all restarts one after another, each with its number. -/
theorem calls_numbered (hcallback : s.callback.isSome) (hk : 0 ≤ s.kIter) {legs : List (Leg R κ α)}
    (h : ∀ leg ∈ legs, leg.path.length = s.kIter.toNat) (j : ℕ) :
    (s.calls j legs).filterMap Call.shown?
      = (legs.flatMap s.displayed).mapIdx fun i x => (j * s.kIter + (i + 1 : ℕ), x) := by
  induction legs generalizing j with
  | nil => rfl
  | cons leg legs ih =>
    have hlength : ((s.displayed leg).length : ℤ) = s.kIter := by
      rw [length_displayed, h leg List.mem_cons_self]
      exact Int.toNat_of_nonneg hk
    unfold calls callsOf
    rw [List.filterMap_append, ih (fun leg hleg => h leg (List.mem_cons_of_mem _ hleg)),
      Observer.callsAlong_shown (o := s.observer leg.al leg.type (j * s.kIter)) hcallback,
      List.flatMap_cons, List.mapIdx_append]
    refine congrArg₂ (· ++ ·) ?_ ?_
    · refine congrArg (List.mapIdx · (s.displayed leg)) ?_
      funext i x
      rw [Nat.zero_add]
      rfl
    · refine congrArg (List.mapIdx · (legs.flatMap s.displayed)) ?_
      funext i x
      refine congrArg (·, x) ?_
      push_cast
      rw [hlength]
      ring

/-- What has an entry for each step of a course. -/
theorem length_flatMap_course {β : Type} {f : Leg R κ α → List β}
    (hf : ∀ leg, (f leg).length = leg.path.length) {n : ℕ} {state : RestartState R κ α}
    {legs : List (Leg R κ α)} (h : s.course n state = .ok legs) :
    (legs.flatMap f).length = n * s.kIter.toNat := by
  have hlengths : legs.map (fun leg => (f leg).length)
      = List.replicate legs.length s.kIter.toNat := by
    rw [List.eq_replicate_iff, List.length_map]
    refine ⟨rfl, ?_⟩
    intro k hk
    obtain ⟨leg, hleg, rfl⟩ := List.mem_map.1 hk
    rw [hf, length_of_mem h hleg]
  rw [List.length_flatMap, hlengths, List.sum_replicate, length_course h, smul_eq_mul]

end Schedule

end PrimalDual
