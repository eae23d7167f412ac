/-
  PrimalDual.Proofs.Run.Deliveries
  ────────────────────────────────
  **WHAT CAN BE DELIVERED OF AN ORBIT.**

  A run returns if its orbit exists, its sums do and its observers accept what
  they are given (`Observer.delivers_returns`).  The sums are taken from zeros
  in the shape of the start:

      x0 * 0 + x₁ + … + xₙ

  A proximal map that does not shrink its argument makes every iterate stretch
  the one before it.  Then the sums exist (`NeverShrinks.sums`), the zeros
  leave no trace in them (`mean_of_stretches`), and after a single step there
  is no difference between the output types (`observed_one_typed`).  Dual
  iterates never shrink, whatever the proximal map (`next_stretches`).
-/
import PrimalDual.Proofs.Run.Reference
import PrimalDual.Proofs.Run.WarmStart

namespace PrimalDual

open Tensor

variable {𝕜 : Type} [RCLike 𝕜]

/-! ## §1. Shapes along an orbit. -/

/-- Terms that do not shrink can be added to zeros in the shape of what they follow. -/
theorem Tensor.sumFrom_zeros_of_chain {x : Tensor Unit 𝕜} {xs : List (Tensor Unit 𝕜)}
    (h : List.IsChain (fun a b => Stretches a.shape b.shape) (x :: xs)) :
    ∃ t, sumFrom x.zerosLike xs = .ok t := by
  cases xs with
  | nil => exact ⟨_, rfl⟩
  | cons y ys =>
    obtain ⟨hxy, hchain⟩ := List.isChain_cons_cons.1 h
    rw [sumFrom_zerosLike hxy]
    exact sumFrom_of_chain hchain

namespace Problem

variable {p : Problem (Except (Failure ℝ)) ℝ Unit 𝕜} {n : ℕ}
variable {z z' : Tensor Unit 𝕜 × Tensor Unit 𝕜} {zs : List (Tensor Unit 𝕜 × Tensor Unit 𝕜)}

/-- What holds between a pair and the next one links the pairs of an orbit. -/
theorem orbit_isChain {P : Tensor Unit 𝕜 × Tensor Unit 𝕜 → Tensor Unit 𝕜 × Tensor Unit 𝕜 → Prop}
    (hP : ∀ z z', p.next z = .ok z' → P z z') (h : p.orbit n z = .ok zs) :
    List.IsChain P (z :: zs) := by
  induction n generalizing z zs with
  | zero =>
    cases h
    exact .singleton z
  | succ n ih =>
    obtain ⟨z', rest, hz', hrest, rfl⟩ := orbit_succ_ok h
    exact .cons_cons (hP z z' hz') (ih hrest)

/-- The proximal map keeps to the space of its argument: what it returns does not have to be
stretched to be added to it. -/
def NeverShrinks (p : Problem (Except (Failure ℝ)) ℝ Unit 𝕜) : Prop :=
  ∀ v t x, p.prox v t = .ok x → Stretches v.shape x.shape

/-- What a step of the recursion that returned has computed. -/
theorem next_ok (h : p.next z = .ok z') :
    ∃ u v e image moved w, p.K.adjoint z.2 = .ok u ∧ z.1.sub (scale p.primalStep u) = .ok v
      ∧ p.prox v p.primalStep = .ok z'.1 ∧ (scale (2 : ℝ) z'.1).sub z.1 = .ok e
      ∧ p.K.forward e = .ok image ∧ z.2.add (scale p.dualStep image) = .ok moved
      ∧ moved.sub (scale p.dualStep p.b) = .ok w
      ∧ Prox.dual w (p.dualStep * p.epsilon) p.q = .ok z'.2 := by
  obtain ⟨u, hu, h⟩ := bind_eq_ok.1 h
  obtain ⟨v, hv, h⟩ := bind_eq_ok.1 h
  obtain ⟨x, hx, h⟩ := bind_eq_ok.1 h
  obtain ⟨e, he, h⟩ := bind_eq_ok.1 h
  obtain ⟨image, himage, h⟩ := bind_eq_ok.1 h
  obtain ⟨moved, hmoved, h⟩ := bind_eq_ok.1 h
  obtain ⟨w, hw, h⟩ := bind_eq_ok.1 h
  obtain ⟨y, hy, h⟩ := bind_eq_ok.1 h
  cases h
  exact ⟨u, v, e, image, moved, w, hu, hv, hx, he, himage, hmoved, hw, hy⟩

/-- With such a map the primal iterates do not shrink. -/
theorem NeverShrinks.fst (hp : p.NeverShrinks) (h : p.next z = .ok z') :
    Stretches z.1.shape z'.1.shape := by
  obtain ⟨u, v, e, image, moved, w, -, hv, hx, -⟩ := next_ok h
  exact (stretches_of_stretch (addMultiple_ok hv).1).1.trans (hp v _ z'.1 hx)

/-- The dual iterates never shrink. -/
theorem next_stretches (h : p.next z = .ok z') : Stretches z.2.shape z'.2.shape := by
  obtain ⟨u, v, e, image, moved, w, -, -, -, -, -, hmoved, hw, hy⟩ := next_ok h
  rw [Prox.shape_dual hy]
  exact (stretches_of_stretch (add_ok hmoved).1).1.trans
    (stretches_of_stretch (addMultiple_ok hw).1).1

/-- Iterates that do not shrink can be summed up. -/
theorem NeverShrinks.sums (hp : p.NeverShrinks) (h : p.orbit n z = .ok zs) :
    (∃ t, sumFrom z.1.zerosLike (zs.map Prod.fst) = .ok t)
      ∧ ∃ t, sumFrom z.2.zerosLike (zs.map Prod.snd) = .ok t := by
  have hx := orbit_isChain (fun _ _ => hp.fst) h
  have hy := orbit_isChain (fun _ _ => next_stretches) h
  constructor
  · exact sumFrom_zeros_of_chain ((List.isChain_cons_map (b := z) Prod.fst).2 hx)
  · exact sumFrom_zeros_of_chain ((List.isChain_cons_map (b := z) Prod.snd).2 hy)

end Problem

/-! ## §2. Observers. -/

theorem forall₂_exists {β γ : Type} {P : β → γ → Prop} {bs : List β}
    (h : ∀ b ∈ bs, ∃ c, P b c) : ∃ cs, List.Forall₂ P bs cs := by
  induction bs with
  | nil => exact ⟨[], .nil⟩
  | cons b bs ih =>
    obtain ⟨c, hc⟩ := h b (List.mem_cons_self ..)
    obtain ⟨cs, hcs⟩ := ih fun b hb => h b (List.mem_cons_of_mem _ hb)
    exact ⟨c :: cs, .cons hc hcs⟩

namespace Observer

/-- The error measure is given iterates and no averages, or it never fails. -/
def Steady (o : Observer (Except (Failure ℝ)) ℝ Unit 𝕜) : Prop :=
  o.outputType.averagesPrimal = false ∨ ∀ f ∈ o.error, ∀ x, ∃ e, f x = .ok e

/-- The iterates `xs` are measured and shown without a failure. -/
structure Accepts (o : Observer (Except (Failure ℝ)) ℝ Unit 𝕜) (xs : List (Tensor Unit 𝕜)) :
    Prop where
  measured : ∀ f ∈ o.error, ∀ x ∈ xs, ∃ e, f (Tensor.scale o.scale (x.divBy o.al)) = .ok e
  shown : ∀ f ∈ o.callback, ∀ (i : ℕ) x, xs[i]? = some x →
    f (o.offset + (i + 1)) (o.display x) = .ok ()

variable {o : Observer (Except (Failure ℝ)) ℝ Unit 𝕜} {x0 y0 : Tensor Unit 𝕜}
variable {xs : List (Tensor Unit 𝕜)}

/-- The snapshots of a run that does not take averages. -/
theorem snapshots_last (htype : o.outputType.averagesPrimal = false) (x0 : Tensor Unit 𝕜)
    (xs : List (Tensor Unit 𝕜)) : o.Snapshots x0 xs (xs.map (·.divBy o.al)) := by
  unfold Snapshots
  rw [List.forall₂_iff_get]
  refine ⟨by simp, ?_⟩
  intro i hi _
  have hi : i < xs.length := by simpa using hi
  simp only [List.get_eq_getElem, List.getElem_range, List.getElem_map]
  unfold output
  rw [htype, if_neg Bool.false_ne_true, getLastD_take x0 hi]
  rfl

theorem output_exists (averages : Bool) (h : ∃ t, sumFrom x0.zerosLike xs = .ok t) :
    ∃ m, output averages x0 xs = .ok m := by
  obtain ⟨t, ht⟩ := h
  unfold output mean
  rw [ht]
  cases averages <;> exact ⟨_, rfl⟩

/-- Iterates that can be summed up have snapshots. -/
theorem snapshots_exist (h : ∃ t, sumFrom x0.zerosLike xs = .ok t) :
    ∃ snapshots, o.Snapshots x0 xs snapshots := by
  apply forall₂_exists
  intro i _
  -- A sum passes through the sums of its first terms.
  have hfirst : ∃ t, sumFrom x0.zerosLike (xs.take (i + 1)) = .ok t := by
    obtain ⟨t, ht⟩ := h
    rw [← List.take_append_drop (i + 1) xs, sumFrom_append] at ht
    obtain ⟨a, ha, -⟩ := bind_eq_ok.1 ht
    exact ⟨a, ha⟩
  obtain ⟨m, hm⟩ := output_exists o.outputType.averagesPrimal hfirst
  exact ⟨m.divBy o.al, by rw [hm]; rfl⟩

/-- Snapshots of accepted iterates can be measured. -/
theorem errors_exist (ho : o.Steady) (h : o.Accepts xs) {snapshots : List (Tensor Unit 𝕜)}
    (hsnapshots : o.Snapshots x0 xs snapshots) :
    ∃ errors : List ℝ, (o.error = none → errors = []) ∧ ∀ f ∈ o.error,
      List.Forall₂ (fun s e => f (Tensor.scale o.scale s) = .ok e) snapshots errors := by
  cases hf : o.error with
  | none => exact ⟨[], fun _ => rfl, fun f hf' => absurd hf' (Option.not_mem_none f)⟩
  | some f =>
    have hmeasured : ∀ s ∈ snapshots, ∃ e, f (Tensor.scale o.scale s) = .ok e := by
      intro s hs
      rcases ho with htype | htotal
      · obtain rfl := hsnapshots.unique (snapshots_last htype x0 _)
        obtain ⟨x, hx, rfl⟩ := List.mem_map.1 hs
        exact h.measured f hf x hx
      · exact htotal f hf _
    obtain ⟨errors, herrors⟩ := forall₂_exists hmeasured
    refine ⟨errors, fun hnone => absurd hnone (Option.some_ne_none f), ?_⟩
    intro g hg
    cases hg
    exact herrors

variable {zs : List (Tensor Unit 𝕜 × Tensor Unit 𝕜)}
variable {r : InnerResult ℝ Unit 𝕜} {calls : List (ℤ × Tensor Unit 𝕜)}

/-- The records of a run that does not take averages. -/
theorem Delivers.records_last (h : o.Delivers x0 y0 zs r calls)
    (htype : o.outputType.averagesPrimal = false) :
    r.iterates = (if o.store then (zs.map Prod.fst).map (·.divBy o.al) else [])
      ∧ (o.error = none → r.errors = [])
      ∧ ∀ f ∈ o.error, List.Forall₂ (fun x e => f (Tensor.scale o.scale (x.divBy o.al)) = .ok e)
        (zs.map Prod.fst) r.errors := by
  obtain ⟨snapshots, hsnapshots, hiterates, hnone, hsome⟩ := h.records
  obtain rfl := hsnapshots.unique (snapshots_last htype x0 _)
  exact ⟨hiterates, hnone, fun f hf => List.forall₂_map_left_iff.1 (hsome f hf)⟩

/-- What has been delivered has been accepted. -/
theorem Delivers.accepts (h : o.Delivers x0 y0 zs r calls) (ho : o.Steady) :
    o.Accepts (zs.map Prod.fst) := by
  refine ⟨?_, h.accepted⟩
  intro f hf x hx
  rcases ho with htype | htotal
  · obtain ⟨i, hi, rfl⟩ := List.mem_iff_getElem.1 hx
    obtain ⟨e, -, he⟩ := Forall₂.getElem? ((h.records_last htype).2.2 f hf)
      (List.getElem?_eq_getElem hi)
    exact ⟨e, he⟩
  · exact htotal f hf _

/-- What is accepted and has sums is delivered. -/
theorem delivers_returns (ho : o.Steady) (h : o.Accepts (zs.map Prod.fst))
    (hx : ∃ t, sumFrom x0.zerosLike (zs.map Prod.fst) = .ok t)
    (hy : ∃ t, sumFrom y0.zerosLike (zs.map Prod.snd) = .ok t) :
    ∃ r calls, o.Delivers x0 y0 zs r calls := by
  obtain ⟨x, hx'⟩ := output_exists o.outputType.averagesPrimal hx
  obtain ⟨y, hy'⟩ := output_exists o.outputType.averagesDual hy
  obtain ⟨snapshots, hsnapshots⟩ := snapshots_exist (o := o) hx
  obtain ⟨errors, hnone, hsome⟩ := errors_exist ho h hsnapshots
  exact ⟨⟨x, y, if o.store then snapshots else [], errors⟩, _, hx', hy', ⟨hx, hy⟩,
    ⟨snapshots, hsnapshots, rfl, hnone, hsome⟩, h.shown, rfl⟩

end Observer

/-! ## §3. One step. -/

/-- The observer with another output type. -/
def Observer.typed (o : Observer (Except (Failure ℝ)) ℝ Unit 𝕜) (type : OutputType) :
    Observer (Except (Failure ℝ)) ℝ Unit 𝕜 :=
  { o with outputType := type }

namespace Inner

variable {p : Problem (Except (Failure ℝ)) ℝ Unit 𝕜}
variable {o : Observer (Except (Failure ℝ)) ℝ Unit 𝕜} {x0 y0 : Tensor Unit 𝕜}

/-- A run of one step. -/
theorem observed_one (p : Problem (Except (Failure ℝ)) ℝ Unit 𝕜)
    (o : Observer (Except (Failure ℝ)) ℝ Unit 𝕜) (x0 y0 : Tensor Unit 𝕜) :
    observed p o 1 x0 y0 = (do
      let s ← p.advance (.start x0 y0)
      let record ← o.observe 1 s
      return (result o.outputType 1 s [record], (o.calls 1 s).filterMap Call.shown?)) := by
  unfold observed
  rw [run_run]
  show _ <$> ((steps p o 1 0 (.start x0 y0) >>= fun out =>
    pure (result o.outputType 1 out.1 out.2)) >>= fun out =>
      p.path 1 (.start x0 y0) >>= fun path => pure (out, [] ++ o.callsAlong 0 path)) = _
  -- The step is taken by the run and once more by its path; both fail or neither does.
  unfold steps Problem.path
  cases p.advance (.start x0 y0) with
  | error e => rfl
  | ok s =>
    show _ <$> (((o.observe 1 s >>= fun record => pure (s, [record])) >>= fun out =>
      pure (result o.outputType 1 out.1 out.2)) >>= fun out =>
        pure (out, [] ++ (o.calls 1 s ++ []))) = o.observe 1 s >>= _
    rw [List.nil_append, List.append_nil]
    cases o.observe 1 s <;> rfl

/-- The result after one step whose sums are the iterates. -/
theorem result_one {s : Iterate Unit 𝕜} (hx : s.xSum = s.x) (hy : s.ySum = s.y)
    (type : OutputType) (records : List (Record ℝ Unit 𝕜)) : result type 1 s records
      = ⟨s.x, s.y, records.filterMap Record.snapshot, records.filterMap Record.error⟩ := by
  have hdivBy : ∀ u : Tensor Unit 𝕜, u.divBy (Control.ofInt 1 : ℝ) = u := by
    intro u
    rw [Control.ofInt_real, Int.cast_one, divBy_eq_scale, inv_one, scale_one]
  unfold result
  rw [hx, hy, hdivBy, hdivBy, ite_self, ite_self]

/-- The snapshot after one step whose sum is the iterate. -/
theorem snapshot_one {s : Iterate Unit 𝕜} (hx : s.xSum = s.x) :
    o.snapshot 1 s = s.x.divBy o.al := by
  have hone : (Control.ofInt (1 : ℕ) : ℝ) = 1 := by
    rw [Control.ofInt_real]
    norm_num
  unfold Observer.snapshot
  rw [hx, hone, mul_one]
  exact ite_self _

/-- With a single step every output type gives the same. -/
theorem observed_one_typed (hp : p.NeverShrinks) (type type' : OutputType) :
    observed p (o.typed type) 1 x0 y0 = observed p (o.typed type') 1 x0 y0 := by
  rw [observed_one, observed_one]
  cases hs : p.advance (.start x0 y0) with
  | error e => rfl
  | ok s =>
    have hnext := Problem.next_of_advance hs
    obtain ⟨hx, hy⟩ := Problem.advance_sums hs
    -- The sums are zeros and the first iterates.
    replace hx : s.xSum = s.x := Except.ok.inj (hx.symm.trans (zerosLike_add (hp.fst hnext)))
    replace hy : s.ySum = s.y :=
      Except.ok.inj (hy.symm.trans (zerosLike_add (Problem.next_stretches hnext)))
    have hobserve : (o.typed type).observe 1 s = (o.typed type').observe 1 s := by
      unfold Observer.observe
      rw [snapshot_one hx, snapshot_one hx]
      rfl
    have hcalls : (o.typed type).calls 1 s = (o.typed type').calls 1 s := by
      unfold Observer.calls
      rw [snapshot_one hx, snapshot_one hx]
      rfl
    show ((o.typed type).observe 1 s >>= fun record => pure (result type 1 s [record], _))
      = (o.typed type').observe 1 s >>= fun record => pure (result type' 1 s [record], _)
    simp only [result_one hx hy, hobserve, hcalls]

/-! ## §4. Runs. -/

/-- What a run returns is what it returns when it is observed. -/
theorem run_eq_observed (p : Problem (Except (Failure ℝ)) ℝ Unit 𝕜)
    (o : Observer (Except (Failure ℝ)) ℝ Unit 𝕜) (n : ℕ) (x0 y0 : Tensor Unit 𝕜) :
    run p o n x0 y0 = Prod.fst <$> observed p o n x0 y0 := by
  unfold observed
  rw [run_run]
  cases hrun : run p o n x0 y0 with
  | error e => rfl
  | ok r =>
    obtain ⟨⟨final, records⟩, hsteps, -⟩ := bind_eq_ok.1 hrun
    obtain ⟨path, hpath, -⟩ := steps_ok hsteps
    rw [hpath]
    rfl

/-- The last snapshot is the primal output divided by the rescaling factor. -/
theorem snapshot_final {n : ℕ} (hn : 1 ≤ n) {r : InnerResult ℝ Unit 𝕜}
    {calls : List (ℤ × Tensor Unit 𝕜)} (h : observed p o n x0 y0 = .ok (r, calls))
    (hstore : o.store = true) : r.iterates.getLast? = some (r.x.divBy o.al) := by
  obtain ⟨zs, horbit, hdelivers⟩ := delivers_of_observed h
  obtain ⟨snapshots, hsnapshots, hiterates, -⟩ := hdelivers.records
  have hlength : (zs.map Prod.fst).length = n := by
    rw [List.length_map, Problem.length_orbit horbit]
  have hcount : snapshots.length = n := by
    rw [← hsnapshots.length_eq, List.length_range, hlength]
  have hlast : (List.range (zs.map Prod.fst).length)[n - 1]? = some (n - 1) := by
    rw [hlength, List.getElem?_range (by omega)]
  obtain ⟨s, hs, houtput⟩ := Forall₂.getElem? hsnapshots hlast
  -- The last snapshot is taken of all iterates.
  rw [Nat.sub_add_cancel hn, List.take_of_length_le hlength.le, hdelivers.x] at houtput
  rw [hiterates, if_pos hstore, List.getLast?_eq_getElem?, hcount, hs]
  exact congrArg some (Except.ok.inj houtput).symm

/-- A mean of which the start leaves no trace. -/
theorem mean_of_stretches {start x : Tensor Unit 𝕜} (h : Stretches start.shape x.shape)
    (xs : List (Tensor Unit 𝕜)) :
    mean start (x :: xs) = (·.divBy ((xs.length : ℝ) + 1)) <$> sumFrom x xs := by
  unfold mean
  rw [sumFrom_zerosLike h, List.length_cons, Nat.cast_add, Nat.cast_one]

/-- The run from `(x0, y0)` is the recursion, observed. -/
structure FollowsRecursion (p : Problem (Except (Failure ℝ)) ℝ Unit 𝕜)
    (o : Observer (Except (Failure ℝ)) ℝ Unit 𝕜) (x0 y0 : Tensor Unit 𝕜) : Prop where
  result : ∀ n : ℕ, run p o n x0 y0 = Prod.fst <$> observed p o n x0 y0
  /-- A run returns what the pairs of the recursion deliver. -/
  delivers : ∀ (n : ℕ) r calls, observed p o n x0 y0 = .ok (r, calls)
    ↔ ∃ zs, p.orbit n (x0, y0) = .ok zs ∧ o.Delivers x0 y0 zs r calls
  /-- It does so where the recursion goes on and the observers accept what they are given. -/
  returns : p.NeverShrinks → o.Steady → ∀ n zs, p.orbit n (x0, y0) = .ok zs →
    o.Accepts (zs.map Prod.fst) → ∃ out, observed p o n x0 y0 = .ok out
  /-- The zeros to which the primal iterates are added do not count. -/
  meanX : p.NeverShrinks → ∀ z, p.next (x0, y0) = .ok z → ∀ xs,
    mean x0 (z.1 :: xs) = (·.divBy ((xs.length : ℝ) + 1)) <$> sumFrom z.1 xs
  /-- Neither do those to which the dual iterates are added. -/
  meanY : ∀ z, p.next (x0, y0) = .ok z → ∀ ys,
    mean y0 (z.2 :: ys) = (·.divBy ((ys.length : ℝ) + 1)) <$> sumFrom z.2 ys
  finalSnapshot : ∀ (n : ℕ) r calls, 1 ≤ n → observed p o n x0 y0 = .ok (r, calls) →
    o.store = true → r.iterates.getLast? = some (r.x.divBy o.al)
  oneStep : p.NeverShrinks → ∀ type type',
    observed p (o.typed type) 1 x0 y0 = observed p (o.typed type') 1 x0 y0

/-- An orbit that is accepted is run. -/
theorem observed_returns (hp : p.NeverShrinks) (ho : o.Steady) {n : ℕ}
    {zs : List (Tensor Unit 𝕜 × Tensor Unit 𝕜)} (horbit : p.orbit n (x0, y0) = .ok zs)
    (haccepts : o.Accepts (zs.map Prod.fst)) : ∃ out, observed p o n x0 y0 = .ok out := by
  obtain ⟨hx, hy⟩ := hp.sums horbit
  obtain ⟨r, calls, hdelivers⟩ := Observer.delivers_returns ho haccepts hx hy
  exact ⟨_, observed_of_delivers horbit hdelivers⟩

theorem followsRecursion (p : Problem (Except (Failure ℝ)) ℝ Unit 𝕜)
    (o : Observer (Except (Failure ℝ)) ℝ Unit 𝕜) (x0 y0 : Tensor Unit 𝕜) :
    FollowsRecursion p o x0 y0 where
  result n := run_eq_observed p o n x0 y0
  delivers _ _ _ := observed_iff
  returns hp ho _ _ horbit haccepts := observed_returns hp ho horbit haccepts
  meanX hp _ hz xs := mean_of_stretches (hp.fst hz) xs
  meanY _ hz ys := mean_of_stretches (Problem.next_stretches hz) ys
  finalSnapshot _ _ _ hn h hstore := snapshot_final hn h hstore
  oneStep hp type type' := observed_one_typed hp type type'

end Inner

end PrimalDual
