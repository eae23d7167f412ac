/-
  PrimalDual.Proofs.Calls.Order
  ─────────────────────────────
  **THE ORDER OF THE CALLS OF A RUN.**

  Every call of a run can be written down with the way in which it ended
  (`World.spy`).  The solver does not notice, and what is written down
  *obeys* the plan of the run (`Obeys`):

      returned     the whole plan was passed, and every call returned
      stopped      the solver itself gave up after a part of the plan
      raised       the last call raised the failure that is the outcome

  The three are kept when one computation follows another, so the solver
  obeys its plan function by function.  Where it gives up after the request
  was made ready, its failure is no verdict on the request.  Taken together
  these say in which order, and how often, the maps of a request are called
  (`Solver.calls_in_order`).
-/
import PrimalDual.Proofs.Calls.Attended
import PrimalDual.Proofs.Calls.Interruption

namespace PrimalDual

variable {σ R κ α β β' : Type}

/-! ## §1. Calls that have ended. -/

/-- A call with the way in which it ended. -/
inductive Ending (R : Type) where
  | returned (site : Site R)
  | raised (site : Site R) (e : Failure R)

/-- The site of a call. -/
def Ending.site : Ending R → Site R
  | returned site | raised site _ => site

/-- A computation at a site that writes down how it ended. -/
def World.spy : Wrapper (World σ R) (World (σ × List (Ending R)) R) R := fun site _ x s =>
  match x.play s.1 with
  | (.ok a, t) => (.ok a, t, s.2 ++ [.returned site])
  | (.error e, t) => (.error e, t, s.2 ++ [.raised site e])

/-! ## §2. Plans that are obeyed. -/

/-- A computation that ended in two ways, with and without the calls written down, obeys the
plan `g`.  Failures of its own are among those that are allowed. -/
inductive Obeys (allowed : Failure R → Prop) (P : β → β' → Prop) (g : List (Site R)) :
    Except (Failure R) β → Except (Failure R) β' → List (Ending R) → Prop where
  | returned {a : β} {a' : β'} (related : P a a') :
    Obeys allowed P g (.ok a) (.ok a') (g.map .returned)
  | stopped {e : Failure R} (h rest : List (Site R)) (plan : h ++ rest = g) (own : allowed e) :
    Obeys allowed P g (.error e) (.error e) (h.map .returned)
  | raised {e : Failure R} (h : List (Site R)) (site : Site R) (rest : List (Site R))
    (plan : h ++ site :: rest = g) :
    Obeys allowed P g (.error e) (.error e) (h.map .returned ++ [.raised site e])

namespace Obeys

variable {allowed allowed' : Failure R → Prop} {P : β → β' → Prop} {g h : List (Site R)}
variable {out : Except (Failure R) β} {out' : Except (Failure R) β'} {endings : List (Ending R)}

/-- What obeys a plan obeys a longer one that begins with calls that were made before. -/
theorem after (hobeys : Obeys allowed P h out out' endings) (g : List (Site R)) :
    Obeys allowed P (g ++ h) out out' (g.map .returned ++ endings) := by
  cases hobeys with
  | returned hP =>
    rw [← List.map_append]
    exact .returned hP
  | stopped first rest plan own =>
    rw [← List.map_append]
    exact .stopped (g ++ first) rest (by rw [List.append_assoc, plan]) own
  | raised first site rest plan =>
    rw [← List.append_assoc, ← List.map_append]
    exact .raised (g ++ first) site rest (by rw [List.append_assoc, plan])

/-- A computation that failed obeys every longer plan. -/
theorem error_before {γ γ' : Type} {Q : γ → γ' → Prop} {e : Failure R}
    (hobeys : Obeys allowed P g (.error e) out' endings) (h : List (Site R)) :
    out' = .error e ∧ Obeys allowed Q (g ++ h) (.error e) (.error e) endings := by
  cases hobeys with
  | stopped first rest plan own =>
    exact ⟨rfl, .stopped first (rest ++ h) (by rw [← List.append_assoc, plan]) own⟩
  | raised first site rest plan =>
    exact ⟨rfl, .raised first site (rest ++ h) (by rw [← plan, List.append_assoc]; rfl)⟩

theorem mono (hobeys : Obeys allowed P g out out' endings) (h : ∀ e, allowed e → allowed' e) :
    Obeys allowed' P g out out' endings := by
  cases hobeys with
  | returned hP => exact .returned hP
  | stopped first rest plan own => exact .stopped first rest plan (h _ own)
  | raised first site rest plan => exact .raised first site rest plan

theorem outcomes (hobeys : Obeys allowed P g out out' endings) : Matches P out out' := by
  cases hobeys with
  | returned hP => exact .ok hP
  | stopped | raised => exact .error _

theorem site_returned (g : List (Site R)) : (g.map Ending.returned).map Ending.site = g := by
  rw [List.map_map]
  exact List.map_id g

/-- The calls are a part of the plan, from its beginning. -/
theorem isPrefix (hobeys : Obeys allowed P g out out' endings) :
    endings.map Ending.site <+: g := by
  cases hobeys with
  | returned hP => rw [site_returned]
  | stopped first rest plan own => exact ⟨rest, by rw [site_returned, plan]⟩
  | raised first site rest plan =>
    refine ⟨rest, ?_⟩
    rw [List.map_append, site_returned, ← plan, List.append_assoc]
    rfl

/-- A computation that returned has made every call of its plan. -/
theorem whole (hobeys : Obeys allowed P g out out' endings) {a' : β'} (h : out' = .ok a') :
    endings = g.map .returned := by
  cases hobeys with
  | returned hP => rfl
  | stopped | raised => cases h

/-- A failure that a call raised is the outcome, and no call comes after it. -/
theorem last (hobeys : Obeys allowed P g out out' endings) {site : Site R} {e : Failure R}
    (h : .raised site e ∈ endings) :
    out' = .error e ∧ ∃ first : List (Site R), endings = first.map .returned ++ [.raised site e] := by
  have hnone : ∀ g : List (Site R), Ending.raised site e ∉ g.map Ending.returned := by
    intro g hmem
    obtain ⟨_, -, h⟩ := List.mem_map.1 hmem
    cases h
  cases hobeys with
  | returned hP => exact absurd h (hnone _)
  | stopped first rest plan own => exact absurd h (hnone _)
  | raised first site' rest plan =>
    rcases List.mem_append.1 h with h | h
    · exact absurd h (hnone _)
    · cases List.mem_singleton.1 h
      exact ⟨rfl, first, rfl⟩

/-- A failure that no call raised is one of its own. -/
theorem own (hobeys : Obeys allowed P g out out' endings) {e : Failure R} (he : out' = .error e)
    (h : ∀ site, .raised site e ∉ endings) : allowed e := by
  cases hobeys with
  | returned hP => cases he
  | stopped first rest plan own =>
    cases he
    exact own
  | raised first site rest plan =>
    cases he
    exact absurd (List.mem_append_right _ List.mem_cons_self) (h site)

end Obeys

/-! ## §3. Calls that are written down. -/

variable (allowed : Failure R → Prop)

/-- Computations with their calls written down, compared with the same ones without. -/
def spying (hroutine : ∀ e : Failure R, ¬ e.Refuses → allowed e) :
    Comparison (World (σ × List (Ending R)) R) (World σ R) R where
  rel g P x x' := ∀ s log, ∃ endings,
    (x.play (s, log)).2 = ((x'.play s).2, log ++ endings)
      ∧ Obeys allowed P g (x.play (s, log)).1 (x'.play s).1 endings
  pure h s log := ⟨[], by rw [List.append_nil]; rfl, .returned h⟩
  bind {β β' γ γ' P Q g h x x' f f'} hx hf s log := by
    obtain ⟨endings, hstate, hobeys⟩ := hx s log
    rcases hplay : x.play (s, log) with ⟨out, t⟩
    rcases hplay' : x'.play s with ⟨out', t'⟩
    rw [hplay, hplay'] at hstate hobeys
    obtain rfl : t = (t', log ++ endings) := hstate
    cases out with
    | ok a =>
      cases hobeys with
      | @returned _ a' hP =>
        -- The second part writes its calls down behind those of the first one.
        obtain ⟨endings', hstate', hobeys'⟩ := hf a a' hP t' (log ++ g.map .returned)
        rw [World.play_bind_ok hplay, World.play_bind_ok hplay']
        exact ⟨g.map .returned ++ endings', by rw [hstate', List.append_assoc], hobeys'.after g⟩
    | error e =>
      obtain ⟨rfl, hobeys'⟩ := hobeys.error_before (Q := Q) h
      rw [World.play_bind_error hplay, World.play_bind_error hplay']
      exact ⟨endings, rfl, hobeys'⟩
  lift {β β' P x x'} h hx s log := by
    rw [World.play_lift, World.play_lift]
    refine ⟨[], by rw [List.append_nil], ?_⟩
    cases h with
    | ok h => exact .returned h
    | error e => exact .stopped [] [] rfl (hroutine e (hx e rfl))

variable (hroutine : ∀ e : Failure R, ¬ e.Refuses → allowed e)

/-- A single call is written down with the way in which it ends. -/
theorem spying_spy (site : Site R) {β : Type} (x : World σ R β) :
    (spying allowed hroutine).rel [site] (· = ·) (World.spy site x) x := by
  intro s log
  have hspy : (World.spy site x).play (s, log) = match x.play s with
    | (.ok a, t) => (.ok a, t, log ++ [.returned site])
    | (.error e, t) => (.error e, t, log ++ [.raised site e]) := rfl
  rw [hspy]
  rcases x.play s with ⟨e | a, t⟩
  · exact ⟨[.raised site e], rfl, .raised [] site [] rfl⟩
  · exact ⟨[.returned site], rfl, .returned rfl⟩

/-- What is no call of the request is not written down; it may fail with what is allowed. -/
theorem spying_quiet {x : World σ R β}
    (hx : ∀ s e, (x.play s).1 = .error e → allowed e) :
    (spying allowed hroutine).rel [] (· = ·) (World.quiet x) x := by
  intro s log
  rw [World.play_quiet]
  refine ⟨[], by rw [List.append_nil], ?_⟩
  rcases hplay : x.play s with ⟨e | a, t⟩
  · exact .stopped [] [] rfl (hx s e (by rw [hplay]))
  · exact .returned rfl

/-! ## §4. Runs. -/

/-- A call of one of the operators. -/
def Site.IsOperator : Site R → Prop
  | forward _ | adjoint _ => True
  | _ => False

section Plans

variable {m : Type → Type}

/-- The sites of a run with the bound `L`: those of the preparation, and as often as there are
steps those of one step. -/
def Request.plan [Control R] (r : Request m R κ α) (L : R) : List (Site R) :=
  r.setup ++ Site.repeated (r.nIter.toNat * r.kIter.toNat) (r.block r.seen (r.options.tau / L))

theorem Site.isOperator_repeated {g : List (Site R)} (hg : ∀ site ∈ g, site.IsOperator) (n : ℕ) :
    ∀ site ∈ Site.repeated n g, site.IsOperator := by
  intro site hsite
  obtain ⟨part, hpart, hsite⟩ := List.mem_flatten.1 hsite
  exact hg site (List.eq_of_mem_replicate hpart ▸ hsite)

/-- While a request is made ready, nothing but its operators is called. -/
theorem Request.isOperator_setup (r : Request m R κ α) : ∀ site ∈ r.setup, site.IsOperator := by
  have hone : ∀ (c : Bool) (site : Site R), site.IsOperator →
      ∀ site' ∈ (if c then [site] else []), site'.IsOperator := by
    rintro (_ | _) site hsite site' hmem
    · cases hmem
    · exact List.mem_singleton.1 hmem ▸ hsite
  have hestimate : ∀ site ∈ (Site.forwards r.options.analysis.isSome
      ++ Site.adjoints r.options.analysis.isSome : List (Site R)), site.IsOperator := by
    cases r.options.analysis.isSome <;> simp [Site.forwards, Site.adjoints, Site.IsOperator]
  intro site hsite
  rcases List.mem_append.1 hsite with hsite | hsite
  · exact hone _ (.adjoint .measurement) trivial site hsite
  · rcases List.mem_append.1 hsite with hsite | hsite
    · exact hone _ (.forward .analysis) trivial site hsite
    · cases hbound : r.options.bound.isNone with
      | false =>
        rw [hbound] at hsite
        cases hsite
      | true =>
        rw [hbound] at hsite
        exact Site.isOperator_repeated hestimate 10 site hsite

end Plans

variable [Control R] [Kinds κ] [Entry α R κ]

namespace Solver

/-- The run of a request with all calls written down, from the state `s`. -/
def spied (env : Environment (World σ R) R κ α) (r : Request (World σ R) R κ α) (s : σ) :
    Except (Failure R) (Solution (World (σ × List (Ending R)) R) R κ α) × σ × List (Ending R) :=
  (solve (env.wrap World.quiet) (r.wrap World.spy)).play (s, [])

/-- What the restarts leave behind has the options with which they began. -/
theorem carryOut_options {env : Environment (World σ R) R κ α} {n : ℤ}
    {ready : Prepared (World σ R) R κ α} {s u : σ} {sol : Solution (World σ R) R κ α}
    (h : (carryOut env n ready).play s = (.ok sol, u)) : sol.options = ready.schedule.options := by
  obtain ⟨_, t, -, h⟩ := World.play_bind_eq_ok h
  obtain ⟨out, t, -, h⟩ := World.play_bind_eq_ok h
  obtain ⟨_, t, -, h⟩ := World.play_bind_eq_ok h
  cases h
  rfl

/-- How a run, with all of its calls written down, keeps to its plan with the bound `L`. -/
structure KeepsPlan (env : Environment (World σ R) R κ α) (r : Request (World σ R) R κ α) (s : σ)
    (L : R) : Prop where
  /-- A bound that was given is the one of the plan. -/
  given : ∀ L', r.options.bound = some L' → L' = L
  /-- Otherwise it is the one with which the restarts began. -/
  prepared : ∀ ready t, (prepare env r).play s = (.ok ready, t) →
    ready.schedule.options.bound = some L
  /-- To write the calls down changes nothing. -/
  state : (spied env r s).2.1 = ((solve env r).play s).2
  calls : Obeys (fun _ => True) (Solution.Like True True) (r.plan L) (spied env r s).1
    ((solve env r).play s).1 (spied env r s).2.2
  /-- A verdict of the solver itself comes before anything but the operators is called. -/
  verdict : ∀ e, ((solve env r).play s).1 = .error e → e.Refuses →
    (∀ site, .raised site e ∉ (spied env r s).2.2) →
      (spied env r s).2.2.map Ending.site <+: r.setup

variable (env : Environment (World σ R) R κ α) (r : Request (World σ R) R κ α)

/-- While a request is made ready, the calls are those of its setup. -/
theorem prepare_obeys :
    (spying (fun _ => True) fun _ _ => trivial).rel r.setup
      (fun ready ready' => ∃ L, Prepared.Twins (r.wrap World.spy) r L ready ready')
      (prepare (env.wrap World.quiet) (r.wrap World.spy)) (prepare env r) := by
  have hσ : (spying (σ := σ) (fun _ : Failure R => True) fun _ _ => trivial).Tolerant := by
    intro β β' P e s log
    rw [World.play_lift, World.play_lift]
    exact ⟨[], by rw [List.append_nil], .stopped [] [] rfl trivial⟩
  have hquiet : ∀ {β : Type} (x : World σ R β),
      (spying (fun _ => True) fun _ _ => trivial).rel [] (· = ·) (World.quiet x) x :=
    fun x => spying_quiet _ _ fun _ _ _ => trivial
  have henv : (env.wrap World.quiet).Alike (spying (fun _ => True) fun _ _ => trivial)
      r.options.display r.options.display env :=
    ⟨fun _ _ => hquiet _, Comparison.tell _ (fun _ => hquiet _) _⟩
  have hr := r.wrap_alike _ (spying_spy (σ := σ) (fun _ => True) fun _ _ => trivial)
  rw [← r.setup_wrap World.spy]
  exact hr.prepare hσ henv

/-- The restarts go on with the calls of their blocks; no verdict comes from them. -/
theorem carryOut_obeys (hreport : ∀ event s e, ((env.report event).play s).1 = .error e → ¬ e.Refuses)
    {L : R} {ready : Prepared (World (σ × List (Ending R)) R) R κ α}
    {ready' : Prepared (World σ R) R κ α}
    (h : Prepared.Twins (r.wrap World.spy) r L ready ready') :
    (spying (fun e => ¬ e.Refuses) fun _ he => he).rel
      (Site.repeated (r.nIter.toNat * r.kIter.toNat) (r.block r.seen (r.options.tau / L)))
      (Solution.Like True True) (carryOut (env.wrap World.quiet) r.nIter ready)
      (carryOut env r.nIter ready') := by
  have hr := r.wrap_alike _ (spying_spy (σ := σ) (fun e => ¬ e.Refuses) fun _ he => he)
  have hquiet : ∀ event, (spying (fun e => ¬ e.Refuses) fun _ he => he).rel [] (· = ·)
      (World.quiet (env.report event)) (env.report event) :=
    fun event => spying_quiet _ _ (hreport event)
  rw [← Site.repeated_mul, ← r.block_wrap World.spy]
  exact h.carryOut hr (fun _ => rfl) (Comparison.tell _ hquiet _)
    (h.announce hr.options rfl rfl hquiet r.nIter)

/-- **Every run keeps to its plan.** -/
theorem keepsPlan
    (hreport : ∀ event s e, ((env.report event).play s).1 = .error e → ¬ e.Refuses) (s : σ) :
    ∃ L, KeepsPlan env r s L := by
  obtain ⟨endings, hstate, hobeys⟩ := prepare_obeys env r s []
  have hspied : spied env r s = ((prepare (env.wrap World.quiet) (r.wrap World.spy))
    >>= carryOut (env.wrap World.quiet) r.nIter).play (s, []) := by
    unfold spied
    rw [solve_carryOut]
    rfl
  rcases hplay : (prepare (env.wrap World.quiet) (r.wrap World.spy)).play (s, []) with ⟨out, t⟩
  rcases hplay' : (prepare env r).play s with ⟨out', t'⟩
  rw [hplay, hplay'] at hstate hobeys
  obtain rfl : t = (t', endings) := hstate
  cases out with
  | error e =>
    -- The request was not made ready, so the plan may go on as it likes.
    obtain ⟨rfl, hobeys'⟩ := hobeys.error_before (Q := Solution.Like True True)
      (Site.repeated (r.nIter.toNat * r.kIter.toNat)
        (r.block r.seen (r.options.tau / r.options.bound.getD Control.zero)))
    refine ⟨r.options.bound.getD Control.zero, ?_, ?_, ?_, ?_, ?_⟩
    · intro L' hL'
      rw [hL']
      rfl
    · intro ready t hready
      rw [hplay'] at hready
      cases hready
    all_goals rw [hspied, solve_carryOut, World.play_bind_error hplay, World.play_bind_error hplay']
    · exact hobeys'
    · exact fun _ _ _ _ => hobeys.isPrefix
  | ok ready =>
    obtain ⟨ready', rfl, L, hready, rfl⟩ : ∃ ready', out' = .ok ready' ∧ ∃ L,
        Prepared.Twins (r.wrap World.spy) r L ready ready' ∧ endings = r.setup.map .returned := by
      cases hobeys with
      | returned h => exact ⟨_, rfl, h.choose, h.choose_spec, rfl⟩
    obtain ⟨endings', hstate', hobeys'⟩ := carryOut_obeys env r hreport hready t' (r.setup.map .returned)
    refine ⟨L, hready.given, ?_, ?_, ?_, ?_⟩
    · intro ready t hprepared
      rw [hplay'] at hprepared
      cases hprepared
      rw [hready.options']
    all_goals rw [hspied, solve_carryOut, World.play_bind_ok hplay, World.play_bind_ok hplay', hstate']
    · exact (hobeys'.after r.setup).mono fun _ _ => trivial
    · intro e he hrefuses hnone
      exact absurd hrefuses
        (hobeys'.own he fun site hmem => hnone site (List.mem_append_right _ hmem))

/-- **The order and the number of the calls of a run.**  They are the beginning of the plan, all of
it if the run returns; a failure that a call raises is the outcome and the end of the calls; and the
verdicts of the solver come before the proximal map and the observers are called.  So a failing
call of the proximal map makes a run fail that would return, if and only if there is such a call. -/
theorem calls_in_order
    (hreport : ∀ event s e, ((env.report event).play s).1 = .error e → ¬ e.Refuses) (s : σ) :
    ∃ L, (∀ L', r.options.bound = some L' → L' = L)
      ∧ (∀ ready t, (prepare env r).play s = (.ok ready, t) → ready.schedule.options.bound = some L)
      ∧ (spied env r s).2.1 = ((solve env r).play s).2
      ∧ Matches (Solution.Like True True) (spied env r s).1 ((solve env r).play s).1
      ∧ (spied env r s).2.2.map Ending.site <+: r.plan L
      ∧ (∀ sol, ((solve env r).play s).1 = .ok sol →
          (spied env r s).2.2 = (r.plan L).map .returned ∧ sol.options.bound = some L
          ∧ ∀ (n : ℤ) (e : Failure R), (∃ e', ((solve (env.wrap World.quiet)
              (r.wrap (World.failAt n e))).play (s, 0)).1 = .error e')
                ↔ 1 ≤ n ∧ n ≤ r.nIter * r.kIter)
      ∧ (∀ site e, .raised site e ∈ (spied env r s).2.2 → ((solve env r).play s).1 = .error e
          ∧ ∃ first : List (Site R), (spied env r s).2.2 = first.map .returned ++ [.raised site e])
      ∧ ∀ e, ((solve env r).play s).1 = .error e → e.Refuses →
          (∀ site, .raised site e ∉ (spied env r s).2.2) →
            ∀ ending ∈ (spied env r s).2.2, ending.site.IsOperator := by
  obtain ⟨L, h⟩ := keepsPlan env r hreport s
  refine ⟨L, h.given, h.prepared, h.state, h.calls.outcomes, h.calls.isPrefix, ?_,
    fun site e => h.calls.last, ?_⟩
  · intro sol hsol
    obtain ⟨ready, t, hready, hcarry⟩ : ∃ ready t, (prepare env r).play s = (.ok ready, t)
        ∧ ((carryOut env r.nIter ready).play t).1 = .ok sol := by
      rw [solve_carryOut] at hsol
      obtain ⟨ready, t, hready, hcarry⟩ := World.play_bind_eq_ok (Prod.ext hsol rfl)
      exact ⟨ready, t, hready, congrArg Prod.fst hcarry⟩
    obtain ⟨hn, hk⟩ := prepare_play_counts hready
    refine ⟨h.calls.whole hsol, ?_, ?_⟩
    · rw [carryOut_options (Prod.ext hcarry rfl)]
      exact h.prepared ready t hready
    · intro n e
      rw [failAt_fails_iff env r ⟨sol, hsol⟩ n e, Nat.cast_mul, Int.toNat_of_nonneg (by omega),
        Int.toNat_of_nonneg (by omega)]
  · intro e he hrefuses hnone ending hmem
    exact r.isOperator_setup _
      ((h.verdict e he hrefuses hnone).subset (List.mem_map_of_mem hmem))

/-- The counting observers report without a failure. -/
theorem counting_reports (event : Progress ℝ) (s : ℕ) (e : Failure ℝ)
    (h : (((Observers.counting.environment quietEnvironment.draw).report event).play s).1
      = .error e) : ¬ e.Refuses := nomatch h

/-- With the counting observers, the run of six steps returns. -/
theorem counting_returns :
    ∃ sol, ((attended quietEnvironment.draw unitRequest Observers.counting).play 0).1 = .ok sol := by
  obtain ⟨noted, t, calls, hnoted⟩ := attended_unit
  have hagrees := (attended_noted Observers.counting quietEnvironment.draw unitRequest 0 []).1
  rw [hnoted] at hagrees
  obtain ⟨sol, hsol, -⟩ := hagrees.returns rfl
  exact ⟨sol, hsol⟩

/-- A run of six steps with all parts: one call makes it ready, seven calls belong to each step, and
it fails with the sixth call of its proximal map. -/
theorem calls_in_order_unit :
    (∀ event s e, (((Observers.counting.environment quietEnvironment.draw).report event).play s).1
        = .error e → ¬ e.Refuses)
      ∧ (∃ sol, ((attended quietEnvironment.draw unitRequest Observers.counting).play 0).1 = .ok sol)
      ∧ (spied (Observers.counting.environment quietEnvironment.draw)
          (unitRequest.attended Observers.counting) 0).2.2
        = (.forward .analysis :: Site.repeated 6 [.adjoint .measurement, .adjoint .analysis,
            .prox (1 / 2), .forward .measurement, .forward .analysis, .measure, .callback]
              : List (Site ℝ)).map .returned
      ∧ (∃ e', ((solve ((Observers.counting.environment quietEnvironment.draw).wrap World.quiet)
          ((unitRequest.attended Observers.counting).wrap
            (World.failAt 6 .zeroMeasurements))).play (0, 0)).1 = .error e') := by
  obtain ⟨sol, hsol⟩ := counting_returns
  obtain ⟨L, hgiven, -, -, -, -, hreturned, -⟩ :=
    calls_in_order _ (unitRequest.attended Observers.counting) counting_reports 0
  obtain rfl : 2 = L := hgiven 2 rfl
  obtain ⟨hcalls, -, hfails⟩ := hreturned sol hsol
  exact ⟨counting_reports, ⟨sol, hsol⟩, hcalls, (hfails 6 .zeroMeasurements).2 (by
    constructor
    · norm_num
    · show (6 : ℤ) ≤ 2 * 3
      norm_num)⟩

end Solver

end PrimalDual
