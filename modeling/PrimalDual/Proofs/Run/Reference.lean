/-
  PrimalDual.Proofs.Run.Reference
  ───────────────────────────────
  **THE RECURSION BEHIND A RUN, AND WHAT A RUN DELIVERS OF IT.**

  The iterates of a run are a sequence of pairs in which sums, records and
  output types play no part:

      x' = prox (x - τ₁ Kᴴ y) τ₁
      y' = dual (y + τ₂ K (2 x' - x) - τ₂ b) (τ₂ ε) q

  `Problem.orbit n z` lists the first `n` pairs after `z`.  What a run of `n`
  steps delivers is stated on this list alone (`Observer.Delivers`): outputs
  and records are its last members or the means of its beginnings, and the
  callback is shown its members.

  A run and the recursion agree in both directions (`Inner.observed_iff`).  A
  run that returned has gone along the orbit.  Conversely, if the orbit
  exists, its sums do, and the observers accept what they are shown, then the
  run returns.
-/
import PrimalDual.Proofs.Run.FewerRestarts
import PrimalDual.Proofs.Run.History

namespace PrimalDual

open Tensor

variable {𝕜 : Type} [RCLike 𝕜]

/-! ## §1. The recursion. -/

namespace Problem

variable (p : Problem (Except (Failure ℝ)) ℝ Unit 𝕜)

/-- The pair of iterates that follows a pair. -/
noncomputable def next (z : Tensor Unit 𝕜 × Tensor Unit 𝕜) :
    Except (Failure ℝ) (Tensor Unit 𝕜 × Tensor Unit 𝕜) := do
  let adjointY ← p.K.adjoint z.2
  let x ← p.prox (← z.1.sub (scale p.primalStep adjointY)) p.primalStep
  let image ← p.K.forward (← (scale (2 : ℝ) x).sub z.1)
  let moved ← z.2.add (scale p.dualStep image)
  let y ← Prox.dual (← moved.sub (scale p.dualStep p.b)) (p.dualStep * p.epsilon) p.q
  return (x, y)

/-- The first `n` pairs after a pair. -/
noncomputable def orbit : ℕ → Tensor Unit 𝕜 × Tensor Unit 𝕜 →
    Except (Failure ℝ) (List (Tensor Unit 𝕜 × Tensor Unit 𝕜))
  | 0, _ => .ok []
  | n + 1, z => do
    let z' ← p.next z
    let rest ← orbit n z'
    return z' :: rest

variable {p}

theorem orbit_succ_ok {n : ℕ} {z : Tensor Unit 𝕜 × Tensor Unit 𝕜}
    {zs : List (Tensor Unit 𝕜 × Tensor Unit 𝕜)} (h : p.orbit (n + 1) z = .ok zs) :
    ∃ z' rest, p.next z = .ok z' ∧ p.orbit n z' = .ok rest ∧ zs = z' :: rest := by
  obtain ⟨z', hz', h⟩ := bind_eq_ok.1 h
  obtain ⟨rest, hrest, h⟩ := bind_eq_ok.1 h
  exact ⟨z', rest, hz', hrest, (Except.ok.inj h).symm⟩

theorem length_orbit {n : ℕ} {z : Tensor Unit 𝕜 × Tensor Unit 𝕜}
    {zs : List (Tensor Unit 𝕜 × Tensor Unit 𝕜)} (h : p.orbit n z = .ok zs) : zs.length = n := by
  induction n generalizing z zs with
  | zero =>
    cases h
    rfl
  | succ n ih =>
    obtain ⟨z', rest, -, hrest, rfl⟩ := orbit_succ_ok h
    rw [List.length_cons, ih hrest]

/-- An orbit continues from its last pair. -/
theorem orbit_append (m n : ℕ) (z : Tensor Unit 𝕜 × Tensor Unit 𝕜) :
    p.orbit (m + n) z = (do
      let first ← p.orbit m z
      let rest ← p.orbit n (first.getLastD z)
      return first ++ rest) := by
  induction m generalizing z with
  | zero =>
    rw [Nat.zero_add]
    show _ = p.orbit n z >>= fun rest => pure ([] ++ rest)
    simp only [List.nil_append, bind_pure]
  | succ m ih =>
    rw [Nat.succ_add]
    simp only [orbit, ih, bind_assoc, pure_bind, List.cons_append, List.getLastD_cons]

/-- Two orbits, of which one goes on where the other ends, are one orbit. -/
theorem orbit_append_ok {m n : ℕ} {z : Tensor Unit 𝕜 × Tensor Unit 𝕜}
    {zs : List (Tensor Unit 𝕜 × Tensor Unit 𝕜)} :
    p.orbit (m + n) z = .ok zs ↔ ∃ first rest, p.orbit m z = .ok first
      ∧ p.orbit n (first.getLastD z) = .ok rest ∧ zs = first ++ rest := by
  rw [orbit_append]
  constructor
  · intro h
    obtain ⟨first, hfirst, h⟩ := bind_eq_ok.1 h
    obtain ⟨rest, hrest, h⟩ := bind_eq_ok.1 h
    exact ⟨first, rest, hfirst, hrest, (Except.ok.inj h).symm⟩
  · rintro ⟨first, rest, hfirst, hrest, rfl⟩
    apply bind_returns hfirst
    apply bind_returns hrest
    rfl

end Problem

/-- The iterates of a state. -/
def Iterate.pair (s : Iterate Unit 𝕜) : Tensor Unit 𝕜 × Tensor Unit 𝕜 := (s.x, s.y)

/-! ## §2. The path of a run. -/

namespace Problem

variable {p : Problem (Except (Failure ℝ)) ℝ Unit 𝕜} {n : ℕ} {s : Iterate Unit 𝕜}

/-- A step goes on to the next pair and adds it to the sums. -/
theorem advance_eq (s : Iterate Unit 𝕜) :
    p.advance s = (do
      let z ← p.next s.pair
      let xSum ← s.xSum.add z.1
      let ySum ← s.ySum.add z.2
      return ⟨z.1, z.2, xSum, ySum⟩) := by
  -- Where the arithmetic can fail nothing has to be lifted.
  have hlift : ∀ {β : Type} (x : Except (Failure ℝ) β), (liftM x : Except (Failure ℝ) β) = x :=
    fun _ => rfl
  unfold advance next dualUpdate primalArgument extrapolate Iterate.pair
  simp only [Control.two_real, hlift, bind_assoc, pure_bind]

/-- The iterates of a step that returned are the next pair. -/
theorem next_of_advance {s' : Iterate Unit 𝕜} (h : p.advance s = .ok s') :
    p.next s.pair = .ok s'.pair := by
  rw [advance_eq] at h
  obtain ⟨z, hz, h⟩ := bind_eq_ok.1 h
  obtain ⟨xSum, -, h⟩ := bind_eq_ok.1 h
  obtain ⟨ySum, -, h⟩ := bind_eq_ok.1 h
  cases h
  exact hz

/-- The iterates along a path are an orbit. -/
theorem orbit_of_path {path : List (Iterate Unit 𝕜)} (h : p.path n s = .ok path) :
    p.orbit n s.pair = .ok (path.map Iterate.pair) := by
  induction n generalizing s path with
  | zero =>
    cases h
    rfl
  | succ n ih =>
    obtain ⟨it, rest, hit, hrest, rfl⟩ := path_succ_ok h
    apply bind_returns (next_of_advance hit)
    apply bind_returns (ih hrest)
    rfl

/-- An orbit that can be summed up is gone along. -/
theorem path_of_orbit {zs : List (Tensor Unit 𝕜 × Tensor Unit 𝕜)} {t u : Tensor Unit 𝕜}
    (h : p.orbit n s.pair = .ok zs) (ht : sumFrom s.xSum (zs.map Prod.fst) = .ok t)
    (hu : sumFrom s.ySum (zs.map Prod.snd) = .ok u) :
    ∃ path, p.path n s = .ok path ∧ path.map Iterate.pair = zs := by
  -- On the steps left: the sums of the whole orbit begin with those of the first step.
  induction n generalizing s zs with
  | zero =>
    cases h
    exact ⟨[], rfl, rfl⟩
  | succ n ih =>
    obtain ⟨z, rest, hz, hrest, rfl⟩ := orbit_succ_ok h
    rw [List.map_cons, sumFrom_cons] at ht hu
    obtain ⟨xSum, hxSum, ht⟩ := bind_eq_ok.1 ht
    obtain ⟨ySum, hySum, hu⟩ := bind_eq_ok.1 hu
    have hit : p.advance s = .ok ⟨z.1, z.2, xSum, ySum⟩ := by
      rw [advance_eq]
      apply bind_returns hz
      apply bind_returns hxSum
      apply bind_returns hySum
      rfl
    obtain ⟨path, hpath, rfl⟩ := ih (s := ⟨z.1, z.2, xSum, ySum⟩) hrest ht hu
    exact ⟨_, path_cons hit hpath, rfl⟩

/-- The sums at the end of a path. -/
theorem path_totals {path : List (Iterate Unit 𝕜)} (h : p.path n s = .ok path) :
    sumFrom s.xSum (path.map Iterate.x) = .ok (path.getLastD s).xSum
      ∧ sumFrom s.ySum (path.map Iterate.y) = .ok (path.getLastD s).ySum := by
  cases path with
  | nil => exact ⟨rfl, rfl⟩
  | cons it rest =>
    have hlast : (it :: rest)[rest.length]? = some ((it :: rest).getLastD s) := by
      rw [List.getLastD_eq_getLast?, List.getLast?_eq_getElem?, List.length_cons,
        Nat.add_sub_cancel, List.getElem?_eq_getElem (by simp), Option.getD_some]
    have hsums := path_sums h hlast
    rwa [List.take_of_length_le (by simp)] at hsums

end Problem

/-! ## §3. What a run delivers. -/

/-- The mean of some iterates.  They are added to zeros in the shape of the start. -/
noncomputable def Tensor.mean (start : Tensor Unit 𝕜) (xs : List (Tensor Unit 𝕜)) :
    Except (Failure ℝ) (Tensor Unit 𝕜) :=
  (·.divBy (xs.length : ℝ)) <$> sumFrom start.zerosLike xs

/-- The output after the iterates `xs`: their mean or the last one. -/
noncomputable def Tensor.output (averages : Bool) (start : Tensor Unit 𝕜)
    (xs : List (Tensor Unit 𝕜)) : Except (Failure ℝ) (Tensor Unit 𝕜) :=
  if averages then mean start xs else .ok (xs.getLastD start)

/-- The output is computed from the sum and the last one. -/
theorem Tensor.output_eq {averages : Bool} {start total last : Tensor Unit 𝕜}
    {xs : List (Tensor Unit 𝕜)} {n : ℕ} (hn : xs.length = n)
    (htotal : sumFrom start.zerosLike xs = .ok total) (hlast : xs.getLastD start = last) :
    output averages start xs
      = .ok (if averages then total.divBy (Control.ofInt (n : ℤ)) else last) := by
  unfold output mean
  cases averages with
  | false => exact congrArg Except.ok hlast
  | true =>
    rw [if_pos rfl, if_pos rfl, htotal, hn, Control.ofInt_real, Int.cast_natCast]
    rfl

/-- A computation leaves one list of results. -/
theorem forall₂_ok_unique {β γ ε : Type} {f : β → Except ε γ} {bs : List β} {cs cs' : List γ}
    (h : List.Forall₂ (fun b c => f b = .ok c) bs cs)
    (h' : List.Forall₂ (fun b c => f b = .ok c) bs cs') : cs = cs' :=
  List.right_unique_forall₂' (fun _ _ _ hc hc' => Except.ok.inj (hc.symm.trans hc')) h h'

namespace Observer

variable (o : Observer (Except (Failure ℝ)) ℝ Unit 𝕜)

/-- The iterate that the callback is shown. -/
noncomputable def display (x : Tensor Unit 𝕜) : Tensor Unit 𝕜 := (Tensor.scale o.scale x).divBy o.al

/-- What the callback is given of the iterates `xs`. -/
noncomputable def displays (xs : List (Tensor Unit 𝕜)) : List (ℤ × Tensor Unit 𝕜) :=
  if o.callback.isSome then xs.mapIdx fun i x => (o.offset + (i + 1), o.display x) else []

/-- The snapshots of the iterates `xs`: number `k` is the primal output after the first `k`
of them, divided by the rescaling factor. -/
def Snapshots (x0 : Tensor Unit 𝕜) (xs snapshots : List (Tensor Unit 𝕜)) : Prop :=
  List.Forall₂
    (fun i s => (·.divBy o.al) <$> output o.outputType.averagesPrimal x0 (xs.take (i + 1)) = .ok s)
    (List.range xs.length) snapshots

/-- What a run from `(x0, y0)` along the pairs `zs` delivers: its result and what it shows
the callback. -/
structure Delivers (x0 y0 : Tensor Unit 𝕜) (zs : List (Tensor Unit 𝕜 × Tensor Unit 𝕜))
    (r : InnerResult ℝ Unit 𝕜) (calls : List (ℤ × Tensor Unit 𝕜)) : Prop where
  x : output o.outputType.averagesPrimal x0 (zs.map Prod.fst) = .ok r.x
  y : output o.outputType.averagesDual y0 (zs.map Prod.snd) = .ok r.y
  /-- The sums are taken whatever the output type. -/
  sums : (∃ t, sumFrom x0.zerosLike (zs.map Prod.fst) = .ok t)
    ∧ ∃ t, sumFrom y0.zerosLike (zs.map Prod.snd) = .ok t
  records : ∃ snapshots, o.Snapshots x0 (zs.map Prod.fst) snapshots
    ∧ r.iterates = (if o.store then snapshots else [])
    ∧ (o.error = none → r.errors = [])
    ∧ ∀ f ∈ o.error, List.Forall₂ (fun s e => f (Tensor.scale o.scale s) = .ok e) snapshots r.errors
  accepted : ∀ f ∈ o.callback, ∀ (i : ℕ) x, (zs.map Prod.fst)[i]? = some x →
    f (o.offset + (i + 1)) (o.display x) = .ok ()
  calls : calls = o.displays (zs.map Prod.fst)

variable {o}

theorem Snapshots.unique {x0 : Tensor Unit 𝕜} {xs snapshots snapshots' : List (Tensor Unit 𝕜)}
    (h : o.Snapshots x0 xs snapshots) (h' : o.Snapshots x0 xs snapshots') :
    snapshots = snapshots' :=
  forall₂_ok_unique h h'

/-- The pairs and the observer leave no choice. -/
theorem Delivers.unique {x0 y0 : Tensor Unit 𝕜} {zs : List (Tensor Unit 𝕜 × Tensor Unit 𝕜)}
    {r r' : InnerResult ℝ Unit 𝕜} {calls calls' : List (ℤ × Tensor Unit 𝕜)}
    (h : o.Delivers x0 y0 zs r calls) (h' : o.Delivers x0 y0 zs r' calls') :
    r = r' ∧ calls = calls' := by
  obtain ⟨snapshots, hsnapshots, hiterates, hnone, hsome⟩ := h.records
  obtain ⟨snapshots', hsnapshots', hiterates', hnone', hsome'⟩ := h'.records
  obtain rfl := hsnapshots.unique hsnapshots'
  have hx : r.x = r'.x := Except.ok.inj (h.x.symm.trans h'.x)
  have hy : r.y = r'.y := Except.ok.inj (h.y.symm.trans h'.y)
  have herrors : r.errors = r'.errors := by
    cases hf : o.error with
    | none => rw [hnone hf, hnone' hf]
    | some f => exact forall₂_ok_unique (hsome f hf) (hsome' f hf)
  refine ⟨?_, h.calls.trans h'.calls.symm⟩
  cases r
  cases r'
  simp only [InnerResult.mk.injEq]
  exact ⟨hx, hy, hiterates.trans hiterates'.symm, herrors⟩

end Observer

/-! ## §4. Runs. -/

namespace Observer

variable {o : Observer (Except (Failure ℝ)) ℝ Unit 𝕜}

theorem getLastD_take {β : Type} {xs : List β} (default : β) {i : ℕ} (hi : i < xs.length) :
    (xs.take (i + 1)).getLastD default = xs[i] := by
  rw [List.getLastD_eq_getLast?, List.getLast?_take]
  simp [hi]

/-- What is recorded along a path is a list of snapshots. -/
theorem snapshots_of_path {p : Problem (Except (Failure ℝ)) ℝ Unit 𝕜} {n : ℕ}
    {x0 y0 : Tensor Unit 𝕜} {path : List (Iterate Unit 𝕜)}
    (h : p.path n (.start x0 y0) = .ok path) :
    o.Snapshots x0 (path.map Iterate.x) (o.snapshots path 0) := by
  unfold Snapshots snapshots
  rw [List.forall₂_iff_get]
  refine ⟨by simp, ?_⟩
  intro i hi hi'
  have hlength : i < path.length := by simpa using hi'
  have hit : path[i]? = some path[i] := List.getElem?_eq_getElem hlength
  simp only [List.get_eq_getElem, List.getElem_range, List.getElem_mapIdx, Nat.zero_add]
  unfold output snapshot
  by_cases htype : o.outputType.averagesPrimal
  · -- The sum so far over the number of steps and the rescaling factor.
    have hsum := (Problem.path_sums h hit).1
    rw [List.map_take] at hsum
    have hcount : (((path.map Iterate.x).take (i + 1)).length : ℝ) = i + 1 := by
      rw [List.length_take, List.length_map, Nat.min_eq_left (by omega)]
      push_cast
      rfl
    rw [if_pos htype, if_pos htype]
    unfold mean
    rw [show sumFrom x0.zerosLike _ = _ from hsum, hcount]
    refine congrArg Except.ok ?_
    show (path[i].xSum.divBy ((i : ℝ) + 1)).divBy o.al
      = path[i].xSum.divBy (o.al * Control.ofInt ((i + 1 : ℕ) : ℤ))
    rw [divBy_eq_scale, divBy_eq_scale, divBy_eq_scale, scale_scale, mul_inv, Control.ofInt_real]
    push_cast
    rfl
  · rw [if_neg htype, if_neg htype, getLastD_take x0 (by rwa [List.length_map]), List.getElem_map]
    rfl

/-- An iterate is observed if the observers accept what they are given. -/
theorem observe_returns {k : ℕ} {s : Iterate Unit 𝕜}
    (herror : ∀ f ∈ o.error, ∃ e, f (Tensor.scale o.scale (o.snapshot k s)) = .ok e)
    (hcallback : ∀ f ∈ o.callback, f (o.offset + k) (o.shown s) = .ok ()) :
    ∃ record, o.observe k s = .ok record := by
  have hmeasured : ∃ e, o.measured k s = .ok e := by
    cases hf : o.error with
    | none => exact ⟨none, measured_none hf⟩
    | some f =>
      obtain ⟨e, he⟩ := herror f hf
      rw [measured_some hf]
      exact ⟨some e, map_eq_ok.2 ⟨e, he, rfl⟩⟩
  have hpresented : o.presented k s = .ok () := by
    cases hf : o.callback with
    | none => exact presented_none hf
    | some f => exact (presented_some hf).trans (hcallback f hf)
  obtain ⟨e, he⟩ := hmeasured
  exact ⟨_, observe_of_parts he hpresented⟩

/-- A path is observed if each of its iterates is. -/
theorem recordsAlong_returns {path : List (Iterate Unit 𝕜)} {k : ℕ}
    (h : ∀ i s, path[i]? = some s → ∃ record, o.observe (k + i + 1) s = .ok record) :
    ∃ records, o.recordsAlong k path = .ok records := by
  induction path generalizing k with
  | nil => exact ⟨[], rfl⟩
  | cons s path ih =>
    obtain ⟨record, hrecord⟩ := h 0 s rfl
    have hlater : ∀ i it, path[i]? = some it →
        ∃ record, o.observe (k + 1 + i + 1) it = .ok record := by
      intro i it hit
      have hobserved := h (i + 1) it hit
      rwa [show k + (i + 1) + 1 = k + 1 + i + 1 by omega] at hobserved
    obtain ⟨records, hrecords⟩ := ih hlater
    exact ⟨record :: records, recordsAlong_cons hrecord hrecords⟩

/-- The callback has accepted every iterate of a path that was observed. -/
theorem recordsAlong_accepted {path : List (Iterate Unit 𝕜)} {k : ℕ}
    {records : List (Record ℝ Unit 𝕜)} (h : o.recordsAlong k path = .ok records)
    {f : ℤ → Tensor Unit 𝕜 → Except (Failure ℝ) Unit} (hf : o.callback = some f) {i : ℕ}
    {s : Iterate Unit 𝕜} (hs : path[i]? = some s) :
    f (o.offset + (k + i + 1 : ℕ)) (o.shown s) = .ok () := by
  induction path generalizing k i records with
  | nil => cases hs
  | cons it path ih =>
    obtain ⟨record, later, hrecord, hlater, -⟩ := recordsAlong_cons_ok h
    cases i with
    | zero =>
      cases hs
      obtain ⟨-, hpresented, -⟩ := observe_ok hrecord
      rwa [presented_some hf] at hpresented
    | succ i =>
      have haccepted := ih hlater hs
      rwa [show k + 1 + i + 1 = k + (i + 1) + 1 by omega] at haccepted

/-- What is shown of a path is shown of its iterates. -/
theorem displays_of_path (o : Observer (Except (Failure ℝ)) ℝ Unit 𝕜)
    (path : List (Iterate Unit 𝕜)) :
    (o.callsAlong 0 path).filterMap Call.shown? = o.displays (path.map Iterate.x) := by
  unfold displays
  cases hcallback : o.callback with
  | none =>
    rw [callsAlong_unshown hcallback]
    rfl
  | some f =>
    rw [callsAlong_shown (by rw [hcallback]; rfl), if_pos (Option.isSome_some)]
    apply List.ext_getElem (by simp)
    intro i hi hi'
    simp only [List.getElem_mapIdx, List.getElem_map, Nat.zero_add]
    push_cast
    rfl

end Observer

namespace Inner

variable {p : Problem (Except (Failure ℝ)) ℝ Unit 𝕜}
variable {o : Observer (Except (Failure ℝ)) ℝ Unit 𝕜} {n : ℕ} {x0 y0 : Tensor Unit 𝕜}

/-- The result of a run of `n` steps and what it shows the callback, each call being
written down when it is made. -/
noncomputable def observed (p : Problem (Except (Failure ℝ)) ℝ Unit 𝕜)
    (o : Observer (Except (Failure ℝ)) ℝ Unit 𝕜) (n : ℕ) (x0 y0 : Tensor Unit 𝕜) :
    Except (Failure ℝ) (InnerResult ℝ Unit 𝕜 × List (ℤ × Tensor Unit 𝕜)) :=
  (fun out => (out.1, out.2.filterMap Call.shown?)) <$> (run p.lift o.watched n x0 y0).run []

theorem observed_ok {r : InnerResult ℝ Unit 𝕜} {calls : List (ℤ × Tensor Unit 𝕜)}
    (h : observed p o n x0 y0 = .ok (r, calls)) :
    ∃ path records, p.path n (.start x0 y0) = .ok path ∧ o.recordsAlong 0 path = .ok records
      ∧ r = result o.outputType n (path.getLastD (.start x0 y0)) records
      ∧ calls = (o.callsAlong 0 path).filterMap Call.shown? := by
  obtain ⟨out, hout, h⟩ := map_eq_ok.1 h
  rw [run_run] at hout
  obtain ⟨r', hr, hout⟩ := bind_eq_ok.1 hout
  obtain ⟨path, hpath, hout⟩ := bind_eq_ok.1 hout
  cases hout
  cases h
  obtain ⟨path', records, hpath', hrecords, rfl⟩ := run_ok hr
  cases hpath.symm.trans hpath'
  exact ⟨path, records, hpath, hrecords, rfl, rfl⟩

theorem observed_of_path {path : List (Iterate Unit 𝕜)} {records : List (Record ℝ Unit 𝕜)}
    (hpath : p.path n (.start x0 y0) = .ok path) (hrecords : o.recordsAlong 0 path = .ok records) :
    observed p o n x0 y0 = .ok (result o.outputType n (path.getLastD (.start x0 y0)) records,
      (o.callsAlong 0 path).filterMap Call.shown?) := by
  have hrun : run p o n x0 y0
      = .ok (result o.outputType n (path.getLastD (.start x0 y0)) records) := by
    exact run_of_path hpath hrecords
  have hwatched : (run p.lift o.watched n x0 y0).run []
      = .ok (result o.outputType n (path.getLastD (.start x0 y0)) records,
        [] ++ o.callsAlong 0 path) := by
    rw [run_run]
    apply bind_returns hrun
    apply bind_returns hpath
    rfl
  exact map_eq_ok.2 ⟨_, hwatched, rfl⟩

/-- A run that returned delivers what its orbit says. -/
theorem delivers_of_observed {r : InnerResult ℝ Unit 𝕜} {calls : List (ℤ × Tensor Unit 𝕜)}
    (h : observed p o n x0 y0 = .ok (r, calls)) :
    ∃ zs, p.orbit n (x0, y0) = .ok zs ∧ o.Delivers x0 y0 zs r calls := by
  obtain ⟨path, records, hpath, hrecords, rfl, rfl⟩ := observed_ok h
  have hlength := Problem.length_path hpath
  have hxs : (path.map Iterate.pair).map Prod.fst = path.map Iterate.x := List.map_map
  have hys : (path.map Iterate.pair).map Prod.snd = path.map Iterate.y := List.map_map
  obtain ⟨hxTotal, hyTotal⟩ := Problem.path_totals hpath
  -- The fields of a delivery in turn: two outputs, their sums, the records and the calls.
  refine ⟨_, Problem.orbit_of_path hpath, ?_⟩
  constructor
  · rw [hxs]
    exact output_eq (by rw [List.length_map, hlength]) hxTotal
      (List.getLastD_map (a := Iterate.start x0 y0))
  · rw [hys]
    exact output_eq (by rw [List.length_map, hlength]) hyTotal
      (List.getLastD_map (a := Iterate.start x0 y0))
  · rw [hxs, hys]
    exact ⟨⟨_, hxTotal⟩, _, hyTotal⟩
  · rw [hxs]
    refine ⟨o.snapshots path 0, Observer.snapshots_of_path hpath,
      Observer.recordsAlong_snapshots hrecords,
      fun hf => Observer.recordsAlong_unmeasured hrecords hf, fun f hf => ?_⟩
    exact List.forall₂_map_left_iff.1 (Observer.recordsAlong_errors hrecords hf)
  · -- What was observed has been accepted by the callback.
    rw [hxs]
    intro f hf i x hx
    rw [List.getElem?_map, Option.map_eq_some_iff] at hx
    obtain ⟨s, hs, rfl⟩ := hx
    have haccepted := Observer.recordsAlong_accepted hrecords hf hs
    rw [Nat.zero_add] at haccepted
    push_cast at haccepted
    exact haccepted
  · rw [hxs]
    exact o.displays_of_path path

/-- The observations of a path are those that its deliveries tell of. -/
theorem recordsAlong_of_delivers {path : List (Iterate Unit 𝕜)}
    {r : InnerResult ℝ Unit 𝕜} {calls : List (ℤ × Tensor Unit 𝕜)}
    (hpath : p.path n (.start x0 y0) = .ok path)
    (h : o.Delivers x0 y0 (path.map Iterate.pair) r calls) :
    ∃ records, o.recordsAlong 0 path = .ok records := by
  have hxs : (path.map Iterate.pair).map Prod.fst = path.map Iterate.x := List.map_map
  obtain ⟨snapshots, hsnapshots, -, -, hmeasured⟩ := h.records
  have haccepted := h.accepted
  rw [hxs] at hsnapshots haccepted
  obtain rfl := hsnapshots.unique (Observer.snapshots_of_path hpath)
  -- The deliveries tell that every snapshot was measured and every iterate accepted.
  apply Observer.recordsAlong_returns
  intro i s hs
  apply Observer.observe_returns
  · intro f hf
    have hsnapshot : (o.snapshots path 0)[i]? = some (o.snapshot (0 + i + 1) s) := by
      unfold Observer.snapshots
      rw [List.getElem?_mapIdx, hs]
      rfl
    obtain ⟨e, -, he⟩ := Forall₂.getElem? (hmeasured f hf) hsnapshot
    exact ⟨e, he⟩
  · intro f hf
    have hx : (path.map Iterate.x)[i]? = some s.x := by
      rw [List.getElem?_map, hs]
      rfl
    have hshown := haccepted f hf i s.x hx
    rw [Nat.zero_add]
    push_cast
    exact hshown

/-- An orbit along which the observers accept what they are shown is run. -/
theorem observed_of_delivers {zs : List (Tensor Unit 𝕜 × Tensor Unit 𝕜)}
    {r : InnerResult ℝ Unit 𝕜} {calls : List (ℤ × Tensor Unit 𝕜)}
    (horbit : p.orbit n (x0, y0) = .ok zs) (h : o.Delivers x0 y0 zs r calls) :
    observed p o n x0 y0 = .ok (r, calls) := by
  obtain ⟨⟨xTotal, hxTotal⟩, yTotal, hyTotal⟩ := h.sums
  obtain ⟨path, hpath, rfl⟩ :=
    Problem.path_of_orbit (s := .start x0 y0) horbit hxTotal hyTotal
  obtain ⟨records, hrecords⟩ := recordsAlong_of_delivers hpath h
  have hrun := observed_of_path hpath hrecords
  -- The run goes along the same orbit, and its deliveries are determined.
  obtain ⟨zs', horbit', hdelivers⟩ := delivers_of_observed hrun
  cases horbit.symm.trans horbit'
  obtain ⟨rfl, rfl⟩ := h.unique hdelivers
  exact hrun

/-- A run delivers what the recursion says, and returns where that can be delivered. -/
theorem observed_iff {r : InnerResult ℝ Unit 𝕜} {calls : List (ℤ × Tensor Unit 𝕜)} :
    observed p o n x0 y0 = .ok (r, calls)
      ↔ ∃ zs, p.orbit n (x0, y0) = .ok zs ∧ o.Delivers x0 y0 zs r calls := by
  constructor
  · exact delivers_of_observed
  · rintro ⟨zs, horbit, h⟩
    exact observed_of_delivers horbit h

end Inner

end PrimalDual
