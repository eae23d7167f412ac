/-
  PrimalDual.Proofs.Run.Course
  ────────────────────────────
  **THE COURSE OF A RUN.**

  What a run computes and what is observed of it are two things.  The
  *course* of a run is the first: for each restart its start, its factor, all
  of its iterates and the state that it hands on.  It is computed without
  any observer:

      path       the iterates of a number of steps
      leg        one restart
      course     the restarts of a run

  A run that returns has gone through its course; its records are those of
  observing the course, iterate by iterate (`steps_ok`, `restart_ok`,
  `restarts_ok`, `solve_ok`), and a course that can be observed throughout
  is run to its end (`steps_of_path`, …, `solve_of_course`).
-/
import PrimalDual.Proofs.Exact.Arithmetic

namespace PrimalDual

variable {R κ α : Type}

/-- A list that is not empty has a last entry. -/
theorem getLastD_mem {β : Type} {l : List β} (h : 1 ≤ l.length) (default : β) :
    l.getLastD default ∈ l := by
  cases l with
  | nil =>
    rw [List.length_nil] at h
    omega
  | cons b l =>
    rw [List.getLastD_cons]
    exact List.getLastD_mem_cons

/-- A restart as it was carried out. -/
structure Leg (R κ α : Type) where
  /-- The state in which it began. -/
  start : RestartState R κ α
  /-- The rescaling factor. -/
  al : R
  /-- Which iterates it returned. -/
  type : OutputType
  /-- The iterates after each of its steps. -/
  path : List (Iterate κ α)
  /-- The state that it handed on. -/
  next : RestartState R κ α

/-- The state after the given restarts. -/
def Leg.last (state : RestartState R κ α) (legs : List (Leg R κ α)) : RestartState R κ α :=
  (legs.map Leg.next).getLastD state

/-- The last state is that after the later restarts. -/
theorem Leg.last_cons (state : RestartState R κ α) (leg : Leg R κ α) (legs : List (Leg R κ α)) :
    Leg.last state (leg :: legs) = Leg.last leg.next legs := by
  unfold Leg.last
  rw [List.map_cons, List.getLastD_cons]

theorem Leg.last_append (state : RestartState R κ α) (legs later : List (Leg R κ α)) :
    Leg.last state (legs ++ later) = Leg.last (Leg.last state legs) later := by
  induction legs generalizing state with
  | nil => rfl
  | cons leg legs ih => rw [List.cons_append, Leg.last_cons, Leg.last_cons, ih]

variable [Control R] [Kinds κ] [Entry α R κ]

/-! ## §1. Steps. -/

namespace Problem

variable (p : Problem (Except (Failure R)) R κ α)

/-- The iterates after each of `n` steps. -/
def path : ℕ → Iterate κ α → Except (Failure R) (List (Iterate κ α))
  | 0, _ => .ok []
  | n + 1, s => do
    let next ← p.advance s
    let rest ← path n next
    return next :: rest

variable {p}

/-- A path of a further step begins with the step. -/
theorem path_succ_ok {n : ℕ} {s : Iterate κ α} {path : List (Iterate κ α)}
    (h : p.path (n + 1) s = .ok path) :
    ∃ next rest, p.advance s = .ok next ∧ p.path n next = .ok rest ∧ path = next :: rest := by
  obtain ⟨next, hnext, h⟩ := bind_eq_ok.1 h
  obtain ⟨rest, hrest, h⟩ := bind_eq_ok.1 h
  exact ⟨next, rest, hnext, hrest, (Except.ok.inj h).symm⟩

theorem path_cons {n : ℕ} {s next : Iterate κ α} {rest : List (Iterate κ α)}
    (hnext : p.advance s = .ok next) (hrest : p.path n next = .ok rest) :
    p.path (n + 1) s = .ok (next :: rest) := by
  apply bind_returns hnext
  apply bind_returns hrest
  rfl

/-- A path has as many iterates as steps. -/
theorem length_path {n : ℕ} {s : Iterate κ α} {path : List (Iterate κ α)}
    (h : p.path n s = .ok path) : path.length = n := by
  induction n generalizing s path with
  | zero =>
    cases h
    rfl
  | succ n ih =>
    obtain ⟨next, rest, -, hrest, rfl⟩ := path_succ_ok h
    rw [List.length_cons, ih hrest]

end Problem

namespace Observer

variable (o : Observer (Except (Failure R)) R κ α)

/-- The value of the error measure at the iterate after `k` steps. -/
def measured (k : ℕ) (s : Iterate κ α) : Except (Failure R) (Option R) :=
  match o.error with
  | none => .ok none
  | some f => some <$> f (Tensor.scale o.scale (o.snapshot k s))

/-- The callback is given the iterate after `k` steps. -/
def presented (k : ℕ) (s : Iterate κ α) : Except (Failure R) Unit :=
  match o.callback with
  | none => .ok ()
  | some f => f (o.offset + k) (o.shown s)

section Parts

variable {o} {k : ℕ} {s : Iterate κ α}

theorem measured_none (hf : o.error = none) : o.measured k s = .ok none := by
  unfold measured
  rw [hf]

theorem measured_some {f : Tensor κ α → Except (Failure R) R} (hf : o.error = some f) :
    o.measured k s = some <$> f (Tensor.scale o.scale (o.snapshot k s)) := by
  unfold measured
  rw [hf]

omit [Control R] in
theorem presented_none (hf : o.callback = none) : o.presented k s = .ok () := by
  unfold presented
  rw [hf]

omit [Control R] in
theorem presented_some {f : ℤ → Tensor κ α → Except (Failure R) Unit} (hf : o.callback = some f) :
    o.presented k s = f (o.offset + k) (o.shown s) := by
  unfold presented
  rw [hf]

end Parts

/-- An observation measures, shows and records, in this order. -/
theorem observe_eq (k : ℕ) (s : Iterate κ α) :
    o.observe k s = (do
      let error ← o.measured k s
      o.presented k s
      return ⟨if o.store then some (o.snapshot k s) else none, error⟩) := by
  obtain ⟨al, scale, type, store, error, callback, offset⟩ := o
  cases error <;> cases callback <;> rfl

/-- An observation measures, shows and then records. -/
theorem observe_bind {m : Type → Type} [Monad m] [LawfulMonad m] (o : Observer m R κ α) (k : ℕ)
    (s : Iterate κ α) : o.observe k s
      = (o.error.elim (pure none) fun f => some <$> f (Tensor.scale o.scale (o.snapshot k s)))
        >>= fun error => (o.callback.elim (pure ()) fun f => f (o.offset + k) (o.shown s))
        >>= fun _ => pure ⟨if o.store then some (o.snapshot k s) else none, error⟩ := by
  obtain ⟨al, scale, type, store, error, callback, offset⟩ := o
  cases error <;> cases callback <;> simp only [observe, Option.elim, pure_bind]

/-- The records of the iterates that follow `k` steps. -/
def recordsAlong (o : Observer (Except (Failure R)) R κ α) :
    ℕ → List (Iterate κ α) → Except (Failure R) (List (Record R κ α))
  | _, [] => .ok []
  | k, s :: path => do
    let record ← o.observe (k + 1) s
    let records ← recordsAlong o (k + 1) path
    return record :: records

variable {o} {k : ℕ} {s : Iterate κ α} {path : List (Iterate κ α)}

/-- What an observation that returned has measured, shown and recorded. -/
theorem observe_ok {record : Record R κ α} (h : o.observe k s = .ok record) :
    o.measured k s = .ok record.error ∧ o.presented k s = .ok ()
      ∧ record.snapshot = if o.store then some (o.snapshot k s) else none := by
  rw [observe_eq] at h
  obtain ⟨error, hmeasured, h⟩ := bind_eq_ok.1 h
  obtain ⟨_, hpresented, h⟩ := bind_eq_ok.1 h
  cases h
  exact ⟨hmeasured, hpresented, rfl⟩

theorem observe_of_parts {error : Option R} (hmeasured : o.measured k s = .ok error)
    (hpresented : o.presented k s = .ok ()) :
    o.observe k s = .ok ⟨if o.store then some (o.snapshot k s) else none, error⟩ := by
  rw [observe_eq]
  apply bind_returns hmeasured
  apply bind_returns hpresented
  rfl

/-- The records along a path begin with that of its first iterate. -/
theorem recordsAlong_cons_ok {records : List (Record R κ α)}
    (h : o.recordsAlong k (s :: path) = .ok records) :
    ∃ record later, o.observe (k + 1) s = .ok record
      ∧ o.recordsAlong (k + 1) path = .ok later ∧ records = record :: later := by
  obtain ⟨record, hrecord, h⟩ := bind_eq_ok.1 h
  obtain ⟨later, hlater, h⟩ := bind_eq_ok.1 h
  exact ⟨record, later, hrecord, hlater, (Except.ok.inj h).symm⟩

theorem recordsAlong_cons {record : Record R κ α} {later : List (Record R κ α)}
    (hrecord : o.observe (k + 1) s = .ok record)
    (hlater : o.recordsAlong (k + 1) path = .ok later) :
    o.recordsAlong k (s :: path) = .ok (record :: later) := by
  apply bind_returns hrecord
  apply bind_returns hlater
  rfl

end Observer

section Steps

variable {p : Problem (Except (Failure R)) R κ α} {o : Observer (Except (Failure R)) R κ α}

/-- **Steps that return have gone along a path**, and their records are those of the path. -/
theorem Inner.steps_ok {n k : ℕ} {s final : Iterate κ α} {records : List (Record R κ α)}
    (h : Inner.steps p o n k s = .ok (final, records)) :
    ∃ path, p.path n s = .ok path ∧ o.recordsAlong k path = .ok records
      ∧ final = path.getLastD s := by
  induction n generalizing k s records with
  | zero =>
    cases h
    exact ⟨[], rfl, rfl, rfl⟩
  | succ n ih =>
    obtain ⟨next, hnext, h⟩ := bind_eq_ok.1 h
    obtain ⟨record, hrecord, h⟩ := bind_eq_ok.1 h
    obtain ⟨⟨last, rest⟩, hrest, h⟩ := bind_eq_ok.1 h
    cases h
    obtain ⟨path, hpath, hrecords, rfl⟩ := ih hrest
    refine ⟨next :: path, ?_, ?_, ?_⟩
    · exact Problem.path_cons hnext hpath
    · exact Observer.recordsAlong_cons hrecord hrecords
    · rw [List.getLastD_cons]

/-- A path that can be observed throughout is gone along. -/
theorem Inner.steps_of_path {n k : ℕ} {s : Iterate κ α} {path : List (Iterate κ α)}
    {records : List (Record R κ α)} (hpath : p.path n s = .ok path)
    (hrecords : o.recordsAlong k path = .ok records) :
    Inner.steps p o n k s = .ok (path.getLastD s, records) := by
  induction n generalizing k s path records with
  | zero =>
    cases hpath
    cases hrecords
    rfl
  | succ n ih =>
    obtain ⟨next, rest, hnext, hrest, rfl⟩ := Problem.path_succ_ok hpath
    obtain ⟨record, later, hrecord, hlater, rfl⟩ := Observer.recordsAlong_cons_ok hrecords
    rw [List.getLastD_cons]
    apply bind_returns hnext
    apply bind_returns hrecord
    apply bind_returns (ih hrest hlater)
    rfl

/-- A run that returns has gone along a path. -/
theorem Inner.run_ok {kIter : ℤ} {x y : Tensor κ α} {r : InnerResult R κ α}
    (h : Inner.run p o kIter x y = .ok r) :
    ∃ path records, p.path kIter.toNat (.start x y) = .ok path
      ∧ o.recordsAlong 0 path = .ok records
      ∧ r = Inner.result o.outputType kIter (path.getLastD (.start x y)) records := by
  obtain ⟨⟨final, records⟩, hsteps, h⟩ := bind_eq_ok.1 h
  obtain ⟨path, hpath, hrecords, rfl⟩ := Inner.steps_ok hsteps
  exact ⟨path, records, hpath, hrecords, (Except.ok.inj h).symm⟩

/-- A path that can be observed throughout is the path of a run. -/
theorem Inner.run_of_path {kIter : ℤ} {x y : Tensor κ α} {path : List (Iterate κ α)}
    {records : List (Record R κ α)} (hpath : p.path kIter.toNat (.start x y) = .ok path)
    (hrecords : o.recordsAlong 0 path = .ok records) :
    Inner.run p o kIter x y
      = .ok (Inner.result o.outputType kIter (path.getLastD (.start x y)) records) := by
  apply bind_returns (Inner.steps_of_path hpath hrecords)
  rfl

end Steps

/-! ## §2. Restarts. -/

namespace Schedule

variable (s : Schedule (Except (Failure R)) R κ α)

/-- The iterate in which a restart with factor `al` begins. -/
def first (state : RestartState R κ α) (al : R) : Iterate κ α :=
  .start (Tensor.scale al state.psi) state.y

/-- The state that a restart with factor `al` hands on if its steps end in `final`. -/
def handOn (state : RestartState R κ α) (al : R) (type : OutputType) (final : Iterate κ α) :
    RestartState R κ α :=
  let r := Inner.result (R := R) type s.kIter final []
  ⟨r.x.divBy al, r.y, s.nextError state.eps⟩

/-- One restart with factor `al`. -/
def leg (state : RestartState R κ α) (al : R) : Except (Failure R) (Leg R κ α) := do
  let step ← stepSize s.options
  let type ← OutputType.find s.outputType
  let path ← (s.problem al step).path s.kIter.toNat (first state al)
  return ⟨state, al, type, path, s.handOn state al type (path.getLastD (first state al))⟩

/-- `n` restarts. -/
def course : ℕ → RestartState R κ α → Except (Failure R) (List (Leg R κ α))
  | 0, _ => .ok []
  | n + 1, state => do
    let al ← Solver.rescale s state.eps
    let leg ← s.leg state al
    let later ← course n leg.next
    return leg :: later

/-- The records of a restart that follows `offset` steps. -/
def record (leg : Leg R κ α) (offset : ℤ) : Except (Failure R) (RestartRecord R κ α) := do
  let records ← (s.observer leg.al leg.type offset).recordsAlong 0 leg.path
  return ⟨(records.filterMap Record.snapshot).map (Tensor.scale s.scale),
    records.filterMap Record.error⟩

/-- The records of the restarts that follow `j` others. -/
def records : ℕ → List (Leg R κ α) → Except (Failure R) (List (RestartRecord R κ α))
  | _, [] => .ok []
  | j, leg :: legs => do
    let record ← s.record leg (j * s.kIter)
    let later ← records (j + 1) legs
    return record :: later

/-- What is left behind by restarts with the given records. -/
def trail (legs : List (Leg R κ α)) (records : List (RestartRecord R κ α)) : Trail R κ α :=
  ⟨records, legs.map Leg.al, legs.map fun leg => leg.start.eps * s.scale⟩

variable {s}

/-- What a restart has read and gone along. -/
theorem leg_ok {state : RestartState R κ α} {al : R} {leg : Leg R κ α}
    (h : s.leg state al = .ok leg) :
    ∃ step, stepSize s.options = .ok step ∧ OutputType.find s.outputType = .ok leg.type
      ∧ (s.problem al step).path s.kIter.toNat (first state al) = .ok leg.path
      ∧ leg.start = state ∧ leg.al = al
      ∧ leg.next = s.handOn state al leg.type (leg.path.getLastD (first state al)) := by
  obtain ⟨step, hstep, h⟩ := bind_eq_ok.1 h
  obtain ⟨type, htype, h⟩ := bind_eq_ok.1 h
  obtain ⟨path, hpath, h⟩ := bind_eq_ok.1 h
  cases h
  exact ⟨step, hstep, htype, hpath, rfl, rfl, rfl⟩

theorem leg_of_path {state : RestartState R κ α} {al step : R} {type : OutputType}
    {path : List (Iterate κ α)} (hstep : stepSize s.options = .ok step)
    (htype : OutputType.find s.outputType = .ok type)
    (hpath : (s.problem al step).path s.kIter.toNat (first state al) = .ok path) :
    s.leg state al = .ok ⟨state, al, type, path,
      s.handOn state al type (path.getLastD (first state al))⟩ := by
  apply bind_returns hstep
  apply bind_returns htype
  apply bind_returns hpath
  rfl

theorem length_leg {state : RestartState R κ α} {al : R} {leg : Leg R κ α}
    (h : s.leg state al = .ok leg) : leg.path.length = s.kIter.toNat := by
  obtain ⟨step, -, -, hpath, -⟩ := leg_ok h
  exact Problem.length_path hpath

/-- A course of a further restart begins with the restart. -/
theorem course_succ_ok {n : ℕ} {state : RestartState R κ α} {legs : List (Leg R κ α)}
    (h : s.course (n + 1) state = .ok legs) :
    ∃ al leg later, Solver.rescale s state.eps = .ok al ∧ s.leg state al = .ok leg
      ∧ s.course n leg.next = .ok later ∧ legs = leg :: later := by
  obtain ⟨al, hal, h⟩ := bind_eq_ok.1 h
  obtain ⟨leg, hleg, h⟩ := bind_eq_ok.1 h
  obtain ⟨later, hlater, h⟩ := bind_eq_ok.1 h
  exact ⟨al, leg, later, hal, hleg, hlater, (Except.ok.inj h).symm⟩

theorem course_cons {n : ℕ} {state : RestartState R κ α} {al : R} {leg : Leg R κ α}
    {later : List (Leg R κ α)} (hal : Solver.rescale s state.eps = .ok al)
    (hleg : s.leg state al = .ok leg) (hlater : s.course n leg.next = .ok later) :
    s.course (n + 1) state = .ok (leg :: later) := by
  apply bind_returns hal
  apply bind_returns hleg
  apply bind_returns hlater
  rfl

/-- The records of a restart are those along its path, in the caller's units. -/
theorem record_ok {leg : Leg R κ α} {offset : ℤ} {record : RestartRecord R κ α}
    (h : s.record leg offset = .ok record) :
    ∃ along, (s.observer leg.al leg.type offset).recordsAlong 0 leg.path = .ok along
      ∧ record = ⟨(along.filterMap Record.snapshot).map (Tensor.scale s.scale),
          along.filterMap Record.error⟩ := by
  obtain ⟨along, halong, h⟩ := bind_eq_ok.1 h
  exact ⟨along, halong, (Except.ok.inj h).symm⟩

theorem record_of_along {leg : Leg R κ α} {offset : ℤ} {along : List (Record R κ α)}
    (halong : (s.observer leg.al leg.type offset).recordsAlong 0 leg.path = .ok along) :
    s.record leg offset = .ok ⟨(along.filterMap Record.snapshot).map (Tensor.scale s.scale),
      along.filterMap Record.error⟩ := by
  apply bind_returns halong
  rfl

/-- The records of restarts begin with those of the first. -/
theorem records_cons_ok {j : ℕ} {leg : Leg R κ α} {legs : List (Leg R κ α)}
    {records : List (RestartRecord R κ α)} (h : s.records j (leg :: legs) = .ok records) :
    ∃ record later, s.record leg (j * s.kIter) = .ok record
      ∧ s.records (j + 1) legs = .ok later ∧ records = record :: later := by
  obtain ⟨record, hrecord, h⟩ := bind_eq_ok.1 h
  obtain ⟨later, hlater, h⟩ := bind_eq_ok.1 h
  exact ⟨record, later, hrecord, hlater, (Except.ok.inj h).symm⟩

theorem records_cons {j : ℕ} {leg : Leg R κ α} {legs : List (Leg R κ α)}
    {record : RestartRecord R κ α} {later : List (RestartRecord R κ α)}
    (hrecord : s.record leg (j * s.kIter) = .ok record)
    (hlater : s.records (j + 1) legs = .ok later) :
    s.records j (leg :: legs) = .ok (record :: later) := by
  apply bind_returns hrecord
  apply bind_returns hlater
  rfl

/-- A course has as many legs as restarts. -/
theorem length_course {n : ℕ} {state : RestartState R κ α} {legs : List (Leg R κ α)}
    (h : s.course n state = .ok legs) : legs.length = n := by
  induction n generalizing state legs with
  | zero =>
    cases h
    rfl
  | succ n ih =>
    obtain ⟨al, leg, later, -, -, hlater, rfl⟩ := course_succ_ok h
    rw [List.length_cons, ih hlater]

/-- A course is one of fewer restarts followed by one of the remaining restarts. -/
theorem course_split {n m : ℕ} {state : RestartState R κ α} {legs : List (Leg R κ α)}
    (h : s.course (n + m) state = .ok legs) :
    s.course n state = .ok (legs.take n)
      ∧ s.course m (Leg.last state (legs.take n)) = .ok (legs.drop n) := by
  induction n generalizing state legs with
  | zero =>
    rw [Nat.zero_add] at h
    exact ⟨rfl, h⟩
  | succ n ih =>
    rw [Nat.succ_add] at h
    obtain ⟨al, leg, later, hal, hleg, hlater, rfl⟩ := course_succ_ok h
    obtain ⟨hfirst, hrest⟩ := ih hlater
    rw [List.take_succ_cons, List.drop_succ_cons]
    constructor
    · exact course_cons hal hleg hfirst
    · rw [Leg.last_cons]
      exact hrest

/-- The restart at a place of a course. -/
theorem course_leg {n j : ℕ} (hj : j < n) {state : RestartState R κ α} {legs : List (Leg R κ α)}
    (h : s.course n state = .ok legs) :
    ∃ leg, legs[j]? = some leg ∧ s.leg (Leg.last state (legs.take j)) leg.al = .ok leg
      ∧ Leg.last state (legs.take (j + 1)) = leg.next := by
  obtain ⟨m, rfl⟩ : ∃ m, n = j + (m + 1) := ⟨n - (j + 1), by omega⟩
  obtain ⟨-, hrest⟩ := course_split h
  obtain ⟨al, leg, later, -, hleg, -, hdrop⟩ := course_succ_ok hrest
  have hplace : legs[j]? = some leg := by
    rw [← List.head?_drop, hdrop, List.head?_cons]
  obtain ⟨-, -, -, -, -, hal, -⟩ := leg_ok hleg
  refine ⟨leg, hplace, hal ▸ hleg, ?_⟩
  unfold Leg.last
  rw [List.take_add_one, hplace, Option.toList_some, List.map_append, List.map_cons, List.map_nil,
    List.getLastD_concat]

/-- Every leg has as many iterates as steps were asked for. -/
theorem length_of_mem {n : ℕ} {state : RestartState R κ α} {legs : List (Leg R κ α)}
    (h : s.course n state = .ok legs) {leg : Leg R κ α} (hleg : leg ∈ legs) :
    leg.path.length = s.kIter.toNat := by
  obtain ⟨j, hj, rfl⟩ := List.mem_iff_getElem.1 hleg
  obtain ⟨leg, hplace, hleg, -⟩ := course_leg (hj.trans_eq (length_course h)) h
  rw [List.getElem?_eq_getElem hj, Option.some.injEq] at hplace
  rw [hplace]
  exact length_leg hleg

/-- **A restart that returns has gone through a leg.** -/
theorem restart_ok {state : RestartState R κ α} {al : R} {offset : ℤ}
    {out : RestartState R κ α × RestartRecord R κ α} (h : s.restart state al offset = .ok out) :
    ∃ leg, s.leg state al = .ok leg ∧ s.record leg offset = .ok out.2 ∧ leg.next = out.1 := by
  obtain ⟨step, hstep, h⟩ := bind_eq_ok.1 h
  obtain ⟨type, htype, h⟩ := bind_eq_ok.1 h
  obtain ⟨r, hr, h⟩ := bind_eq_ok.1 h
  obtain ⟨path, records, hpath, hrecords, rfl⟩ := Inner.run_ok hr
  cases h
  refine ⟨⟨state, al, type, path, s.handOn state al type (path.getLastD (first state al))⟩,
    ?_, ?_, rfl⟩
  · exact leg_of_path hstep htype hpath
  · exact record_of_along hrecords

/-- **A leg that can be observed throughout is that of a restart.** -/
theorem restart_of_leg {state : RestartState R κ α} {al : R} {offset : ℤ} {leg : Leg R κ α}
    {record : RestartRecord R κ α} (hleg : s.leg state al = .ok leg)
    (hrecord : s.record leg offset = .ok record) :
    s.restart state al offset = .ok (leg.next, record) := by
  obtain ⟨step, hstep, hleg⟩ := bind_eq_ok.1 hleg
  obtain ⟨type, htype, hleg⟩ := bind_eq_ok.1 hleg
  obtain ⟨path, hpath, hleg⟩ := bind_eq_ok.1 hleg
  cases hleg
  obtain ⟨along, halong, rfl⟩ := record_ok hrecord
  apply bind_returns hstep
  apply bind_returns htype
  apply bind_returns (Inner.run_of_path hpath halong)
  rfl

end Schedule

/-! ## §3. Reports. -/

/-- Reports an event if progress is displayed. -/
def Environment.tell {m : Type → Type} [Monad m] (env : Environment m R κ α) (display : Bool)
    (event : Progress R) : m Unit :=
  if display then env.report event else pure ()

/-- Every event is received. -/
def Environment.Receptive (env : Environment (Except (Failure R)) R κ α) : Prop :=
  ∀ event, env.report event = .ok ()

omit [Control R] [Kinds κ] [Entry α R κ] in
theorem Environment.Receptive.tell {env : Environment (Except (Failure R)) R κ α}
    (h : env.Receptive) (display : Bool) (event : Progress R) :
    env.tell display event = .ok () := by
  unfold Environment.tell
  split
  · exact h event
  · rfl

namespace Solver

section Equations

variable {m : Type → Type} [Monad m] [LawfulMonad m] [MonadLiftT (Except (Failure R)) m]

omit [LawfulMonad m] in
/-- A bound that is given stays as it is. -/
theorem ensureBound_some (env : Environment m R κ α) (K : Operator m R κ α) (x : Tensor κ α)
    {o : Options m R κ α} {L : R} (h : o.bound = some L) : ensureBound env K x o = pure o := by
  unfold ensureBound
  rw [h]

/-- Without a bound the solver estimates one, and reports before and after. -/
theorem ensureBound_none (env : Environment m R κ α) (K : Operator m R κ α) (x : Tensor κ α)
    {o : Options m R κ α} (h : o.bound = none) :
    ensureBound env K x o = (do
      env.tell o.display .estimating
      let bound ← NormEstimate.estimate env.draw K x.shape NormEstimate.defaultIterations
        NormEstimate.defaultMargin x.kind
      let o ← liftM (o.change fun s => { s with bound := some bound })
      env.tell o.display (.estimated bound)
      return o) := by
  have hreported : ∀ (o : Options m R κ α) (event : Progress R),
      (if o.display then do env.report event; pure o else pure o)
        = (do env.tell o.display event; pure o) := by
    intro o event
    unfold Environment.tell
    cases o.display
    · simp only [Bool.false_eq_true, if_false, pure_bind]
    · simp only [if_true]
  unfold ensureBound
  simp only [h, ← hreported]
  unfold Environment.tell
  cases o.display
  · simp only [Bool.false_eq_true, if_false, pure_bind]
  · simp only [if_true]

/-- A restart is rescaled, reported and carried out before those after it. -/
theorem restarts_succ (env : Environment m R κ α) (s : Schedule m R κ α) (n j : ℕ)
    (state : RestartState R κ α) :
    restarts env s (n + 1) j state = (do
      let al ← liftM (rescale s state.eps)
      env.tell s.options.display (.restarting (j + 1) al (state.eps * s.scale))
      let out ← s.restart state al (j * s.kIter)
      let later ← restarts env s n (j + 1) out.1
      return (later.1, ⟨out.2 :: later.2.records, al :: later.2.als,
        state.eps * s.scale :: later.2.epss⟩)) := by
  rw [restarts]
  unfold Environment.tell
  cases s.options.display
  · simp only [Bool.false_eq_true, if_false, pure_bind]
  · simp only [if_true]

/-- Reports how the restarts begin if progress is displayed. -/
def announce (env : Environment m R κ α) (nIter : ℤ) (s : Schedule m R κ α) : m Unit :=
  if s.options.display then do env.report (← liftM (opening nIter s)) else pure ()

/-- **The stages of a run.** -/
theorem solve_eq (env : Environment m R κ α) (r : Request m R κ α) :
    solve env r = (do
      let ready ← prepare env r
      announce env r.nIter ready.schedule
      let out ← restarts env ready.schedule r.nIter.toNat 0 ready.start
      env.tell ready.schedule.options.display (.completed r.nIter ready.schedule.kIter)
      return solution r.nIter ready.schedule out.1 out.2) := by
  unfold solve announce Environment.tell
  apply bind_congr
  intro ready
  dsimp only
  cases ready.schedule.options.display
  · simp only [Bool.false_eq_true, if_false, pure_bind]
  · simp only [if_true, bind_assoc]

end Equations

/-! ## §4. Runs. -/

variable {env : Environment (Except (Failure R)) R κ α}
variable {s : Schedule (Except (Failure R)) R κ α} {r : Request (Except (Failure R)) R κ α}

/-- Restarts that return begin with one that does. -/
theorem restarts_succ_ok {n j : ℕ} {state final : RestartState R κ α} {trail : Trail R κ α}
    (h : restarts env s (n + 1) j state = .ok (final, trail)) :
    ∃ al next record later, rescale s state.eps = .ok al
      ∧ env.tell s.options.display (.restarting (j + 1) al (state.eps * s.scale)) = .ok ()
      ∧ s.restart state al (j * s.kIter) = .ok (next, record)
      ∧ restarts env s n (j + 1) next = .ok (final, later)
      ∧ trail = ⟨record :: later.records, al :: later.als, state.eps * s.scale :: later.epss⟩ := by
  rw [restarts_succ] at h
  obtain ⟨al, hal, h⟩ := bind_eq_ok.1 h
  obtain ⟨_, htell, h⟩ := bind_eq_ok.1 h
  obtain ⟨⟨next, record⟩, hrestart, h⟩ := bind_eq_ok.1 h
  obtain ⟨⟨final', later⟩, hlater, h⟩ := bind_eq_ok.1 h
  cases h
  exact ⟨al, next, record, later, hal, htell, hrestart, hlater, rfl⟩

/-- **Restarts that return have gone through a course.** -/
theorem restarts_ok {n j : ℕ} {state final : RestartState R κ α} {trail : Trail R κ α}
    (h : restarts env s n j state = .ok (final, trail)) :
    ∃ legs records, s.course n state = .ok legs ∧ s.records j legs = .ok records
      ∧ final = Leg.last state legs ∧ trail = s.trail legs records := by
  induction n generalizing j state final trail with
  | zero =>
    cases h
    exact ⟨[], [], rfl, rfl, rfl, rfl⟩
  | succ n ih =>
    obtain ⟨al, next, record, later, hal, -, hrestart, hlater, rfl⟩ := restarts_succ_ok h
    obtain ⟨leg, hleg, hrecord, rfl⟩ := Schedule.restart_ok hrestart
    obtain ⟨legs, records, hlegs, hrecords, rfl, rfl⟩ := ih hlater
    obtain ⟨-, -, -, -, hstart, hal', -⟩ := Schedule.leg_ok hleg
    refine ⟨leg :: legs, record :: records, ?_, ?_, ?_, ?_⟩
    · exact Schedule.course_cons hal hleg hlegs
    · exact Schedule.records_cons hrecord hrecords
    · exact (Leg.last_cons state leg _).symm
    · unfold Schedule.trail
      rw [List.map_cons, List.map_cons, hstart, hal']

/-- **A course that can be observed throughout is that of restarts.** -/
theorem restarts_of_course (henv : env.Receptive) {n j : ℕ} {state : RestartState R κ α}
    {legs : List (Leg R κ α)} {records : List (RestartRecord R κ α)}
    (hlegs : s.course n state = .ok legs) (hrecords : s.records j legs = .ok records) :
    restarts env s n j state = .ok (Leg.last state legs, s.trail legs records) := by
  induction n generalizing j state legs records with
  | zero =>
    cases hlegs
    cases hrecords
    rfl
  | succ n ih =>
    obtain ⟨al, leg, later, hal, hleg, hlater, rfl⟩ := Schedule.course_succ_ok hlegs
    obtain ⟨record, records', hrecord, hrecords', rfl⟩ := Schedule.records_cons_ok hrecords
    obtain ⟨-, -, -, -, hstart, hal', -⟩ := Schedule.leg_ok hleg
    rw [restarts_succ]
    apply bind_returns hal
    apply bind_returns (henv.tell _ _)
    apply bind_returns (Schedule.restart_of_leg hleg hrecord)
    apply bind_returns (ih hlater hrecords')
    refine congrArg Except.ok (Prod.ext ?_ ?_)
    · exact (Leg.last_cons state leg _).symm
    · unfold Schedule.trail
      rw [List.map_cons, List.map_cons, hstart, hal']

/-- Restarts that return have passed through what fewer restarts return. -/
theorem restarts_split {n m j : ℕ} {state final : RestartState R κ α} {trail : Trail R κ α}
    (h : restarts env s (n + m) j state = .ok (final, trail)) :
    ∃ mid first rest, restarts env s n j state = .ok (mid, first)
      ∧ restarts env s m (j + n) mid = .ok (final, rest) := by
  induction n generalizing j state trail with
  | zero =>
    rw [Nat.zero_add] at h
    exact ⟨state, ⟨[], [], []⟩, trail, rfl, h⟩
  | succ n ih =>
    rw [Nat.succ_add] at h
    obtain ⟨al, next, record, later, hal, htell, hout, hlater, rfl⟩ := restarts_succ_ok h
    -- The first restart is put before what the next ones return.
    obtain ⟨mid, first, rest, hfirst, hrest⟩ := ih hlater
    rw [Nat.add_assoc, Nat.add_comm 1 n] at hrest
    refine ⟨mid, ⟨record :: first.records, al :: first.als, state.eps * s.scale :: first.epss⟩,
      rest, ?_, hrest⟩
    rw [restarts_succ]
    apply bind_returns hal
    apply bind_returns htell
    apply bind_returns hout
    apply bind_returns hfirst
    rfl

/-- A run that returns has made its request ready and gone through its restarts. -/
theorem solve_stages {sol : Solution (Except (Failure R)) R κ α} (h : solve env r = .ok sol) :
    ∃ ready final trail, prepare env r = .ok ready
      ∧ restarts env ready.schedule r.nIter.toNat 0 ready.start = .ok (final, trail)
      ∧ sol = solution r.nIter ready.schedule final trail := by
  rw [solve_eq] at h
  obtain ⟨ready, hready, h⟩ := bind_eq_ok.1 h
  obtain ⟨-, -, h⟩ := bind_eq_ok.1 h
  obtain ⟨⟨final, trail⟩, hrestarts, h⟩ := bind_eq_ok.1 h
  obtain ⟨-, -, h⟩ := bind_eq_ok.1 h
  cases h
  exact ⟨ready, final, trail, hready, hrestarts, rfl⟩

/-- **A run that returns has gone through the course of its request.** -/
theorem solve_ok {sol : Solution (Except (Failure R)) R κ α} (h : solve env r = .ok sol) :
    ∃ ready legs records, prepare env r = .ok ready
      ∧ ready.schedule.course r.nIter.toNat ready.start = .ok legs
      ∧ ready.schedule.records 0 legs = .ok records
      ∧ sol = solution r.nIter ready.schedule (Leg.last ready.start legs)
          (ready.schedule.trail legs records) := by
  obtain ⟨ready, final, trail, hready, hrestarts, rfl⟩ := solve_stages h
  obtain ⟨legs, records, hlegs, hrecords, rfl, rfl⟩ := restarts_ok hrestarts
  exact ⟨ready, legs, records, hready, hlegs, hrecords, rfl⟩

/-- A course of at least one restart was announced. -/
theorem announce_of_course (henv : env.Receptive) {nIter : ℤ} (hn : 1 ≤ nIter)
    {state : RestartState R κ α} {legs : List (Leg R κ α)}
    (hlegs : s.course nIter.toNat state = .ok legs) : announce env nIter s = .ok () := by
  obtain ⟨n, hn'⟩ : ∃ n, nIter.toNat = n + 1 := ⟨nIter.toNat - 1, by omega⟩
  rw [hn'] at hlegs
  obtain ⟨al, leg, later, -, hleg, -, -⟩ := Schedule.course_succ_ok hlegs
  -- The first restart had a step, so there is a bound.
  obtain ⟨step, hstep, -⟩ := Schedule.leg_ok hleg
  obtain ⟨bound, hbound, hquotient⟩ := bind_eq_ok.1 hstep
  have hopening : opening nIter s = .ok (.started nIter s.kIter s.options.outputType bound step
      s.scale s.options.q) := by
    apply bind_returns hbound
    apply bind_returns (bind_returns hbound hquotient)
    rfl
  unfold announce
  split
  · apply bind_returns hopening
    exact henv _
  · rfl

/-- What is made ready has at least one restart of at least one step. -/
theorem prepare_counts {ready : Prepared (Except (Failure R)) R κ α}
    (h : prepare env r = .ok ready) : 1 ≤ r.nIter ∧ 1 ≤ r.kIter := by
  obtain ⟨_, hcheck, -⟩ := bind_eq_ok.1 h
  obtain ⟨hcounts, -⟩ := guard_ok hcheck
  rw [Bool.or_eq_false_iff, decide_eq_false_iff_not, decide_eq_false_iff_not] at hcounts
  omega

/-- **A course that can be observed throughout is run to its end.** -/
theorem solve_of_course (henv : env.Receptive) {ready : Prepared (Except (Failure R)) R κ α}
    {legs : List (Leg R κ α)} {records : List (RestartRecord R κ α)}
    (hready : prepare env r = .ok ready)
    (hlegs : ready.schedule.course r.nIter.toNat ready.start = .ok legs)
    (hrecords : ready.schedule.records 0 legs = .ok records) :
    solve env r = .ok (solution r.nIter ready.schedule (Leg.last ready.start legs)
      (ready.schedule.trail legs records)) := by
  rw [solve_eq]
  apply bind_returns hready
  apply bind_returns (announce_of_course henv (prepare_counts hready).1 hlegs)
  apply bind_returns (restarts_of_course henv hlegs hrecords)
  apply bind_returns (henv.tell _ _)
  rfl

end Solver

end PrimalDual
