/-
  PrimalDual.Proofs.Calls.Interruption
  ────────────────────────────────────
  **A PROXIMAL MAP THAT FAILS ONCE.**

  `failAt n e` counts the calls of the proximal map and makes the `n`-th one
  raise `e`.  A computation that passes the proximal map `p` times, after `c`
  calls, is interrupted if and only if `c < n ≤ c + p`:

      not interrupted    it does what it would have done
      interrupted        it does not return

  Both halves are kept by `bind`, so they hold of a whole run
  (`solve_interrupted`).
-/
import PrimalDual.Proofs.Calls.World

namespace PrimalDual

variable {σ R κ α β β' : Type}

/-! ## §1. Counted calls. -/

/-- Passes the proximal map. -/
def Site.isProx : Site R → Bool
  | prox _ => true
  | _ => false

/-- The number of times that a list of sites passes the proximal map. -/
def Site.proxes (sites : List (Site R)) : ℕ := sites.countP isProx

namespace Site

theorem proxes_append (g h : List (Site R)) : proxes (g ++ h) = proxes g + proxes h :=
  List.countP_append

/-- The proximal maps of `n` steps are `n` times those of one. -/
theorem proxes_repeated (n : ℕ) (g : List (Site R)) : proxes (repeated n g) = n * proxes g := by
  induction n with
  | zero =>
    rw [Nat.zero_mul]
    rfl
  | succ n ih => rw [repeated_succ, proxes_append, ih, Nat.succ_mul, Nat.add_comm]

theorem proxes_forwards (analysis : Bool) : proxes (forwards analysis : List (Site R)) = 0 := by
  cases analysis <;> rfl

theorem proxes_adjoints (analysis : Bool) : proxes (adjoints analysis : List (Site R)) = 0 := by
  cases analysis <;> rfl

theorem proxes_shown (measured displayed : Bool) :
    proxes (shown measured displayed : List (Site R)) = 0 := by
  cases measured <;> cases displayed <;> rfl

end Site

/-- The computation with the `n`-th call of the proximal map failing. -/
def World.failAt (n : ℤ) (e : Failure R) : Wrapper (World σ R) (World (σ × ℕ) R) R
  | .prox _, _, x => fun s =>
    if ((s.2 + 1 : ℕ) : ℤ) = n then (.error e, s.1, s.2 + 1)
    else ((x.play s.1).1, (x.play s.1).2, s.2 + 1)
  | _, _, x => World.quiet x

/-! ## §2. Interrupted computations. -/

/-- The call with number `n` is not among the `p` calls after the first `c`. -/
def Spared (n : ℤ) (c p : ℕ) : Prop := n ≤ c ∨ (c + p : ℕ) < n

theorem Spared.none (n : ℤ) (c : ℕ) : Spared n c 0 := le_or_gt n c

/-- Calls are spared if the first ones are and those after them. -/
theorem Spared.split {n : ℤ} {c p p' : ℕ} :
    Spared n c (p + p') ↔ Spared n c p ∧ Spared n (c + p) p' := by
  unfold Spared
  omega

/-- A computation with an interruption beside the same one without. -/
structure Interrupted (n : ℤ) (p : ℕ) (P : β → β' → Prop) (x : World (σ × ℕ) R β)
    (x' : World σ R β') : Prop where
  /-- What is not interrupted does what it would have done. -/
  same : ∀ s c, Spared n c p → Matches P (x.play (s, c)).1 (x'.play s).1
    ∧ (x.play (s, c)).2.1 = (x'.play s).2
  /-- What returns was not interrupted, and made all of its calls. -/
  spared : ∀ s c a t, x.play (s, c) = (.ok a, t) → Spared n c p ∧ t.2 = c + p

/-- One computation after the other.  If the first one is interrupted, the second is not begun. -/
theorem Interrupted.bind {γ γ' : Type} {n : ℤ} {p p' : ℕ} {P : β → β' → Prop} {Q : γ → γ' → Prop}
    {x : World (σ × ℕ) R β} {x' : World σ R β'} {f : β → World (σ × ℕ) R γ}
    {f' : β' → World σ R γ'} (hx : Interrupted n p P x x')
    (hf : ∀ a a', P a a' → Interrupted n p' Q (f a) (f' a')) :
    Interrupted n (p + p') Q (x >>= f) (x' >>= f') := by
  constructor
  · intro s c hspared
    obtain ⟨hfirst, hsecond⟩ := Spared.split.1 hspared
    obtain ⟨hmatches, hstate⟩ := hx.same s c hfirst
    rcases hplay : x.play (s, c) with ⟨out, t, c'⟩
    rcases hplay' : x'.play s with ⟨out', t'⟩
    rw [hplay, hplay'] at hmatches hstate
    cases hstate
    cases hmatches with
    | ok ha =>
      obtain rfl : c' = c + p := (hx.spared s c _ _ hplay).2
      rw [World.play_bind_ok hplay, World.play_bind_ok hplay']
      exact (hf _ _ ha).same t (c + p) hsecond
    | error e =>
      rw [World.play_bind_error hplay, World.play_bind_error hplay']
      exact ⟨.error e, rfl⟩
  · -- What returned has returned from the first part, so the second one ran from its state.
    intro s c b u hb
    rcases hplay : x.play (s, c) with ⟨a | a, t, c'⟩
    · rw [World.play_bind_error hplay] at hb
      cases hb
    · have hspared := (hx.spared s c _ _ hplay).1
      obtain rfl : c' = c + p := (hx.spared s c _ _ hplay).2
      obtain ⟨hmatches, hstate⟩ := hx.same s c hspared
      rcases hplay' : x'.play s with ⟨out', t'⟩
      rw [hplay, hplay'] at hmatches
      cases hmatches with
      | ok ha =>
        rw [World.play_bind_ok hplay] at hb
        obtain ⟨hsecond, hcount⟩ := (hf _ _ ha).spared t _ b u hb
        exact ⟨Spared.split.2 ⟨hspared, hsecond⟩, hcount.trans (Nat.add_assoc _ _ _)⟩

/-- Computations with an interruption, compared with the same ones without. -/
def interrupting (n : ℤ) : Comparison (World (σ × ℕ) R) (World σ R) R where
  rel g := Interrupted n (Site.proxes g)
  pure h := {
    same := fun _ _ _ => ⟨.ok h, rfl⟩
    spared := fun s c a t ha => by
      cases ha
      exact ⟨.none n c, rfl⟩ }
  bind hx hf := by
    rw [Site.proxes_append]
    exact hx.bind hf
  lift {β β' P x x'} h _ := {
    same := fun s c _ => by
      rw [World.play_lift, World.play_lift]
      exact ⟨h, rfl⟩
    spared := fun s c a t ha => by
      rw [World.play_lift] at ha
      cases ha
      exact ⟨.none n c, rfl⟩ }

theorem interrupting_tolerant (n : ℤ) : (interrupting n : Comparison _ (World σ R) R).Tolerant :=
  fun P e => {
    same := fun s c _ => by
      rw [World.play_lift, World.play_lift]
      exact ⟨.error e, rfl⟩
    spared := fun s c a t ha => by
      rw [World.play_lift] at ha
      cases ha }

/-- A computation of which nothing is counted. -/
theorem interrupted_quiet (n : ℤ) (x : World σ R β) : Interrupted n 0 (· = ·) (World.quiet x) x where
  same s c _ := by
    rw [World.play_quiet]
    exact ⟨.refl _, rfl⟩
  spared s c a t ha := by
    rw [World.play_quiet] at ha
    obtain ⟨-, rfl⟩ := Prod.mk.inj ha
    exact ⟨.none n c, rfl⟩

/-- Every single call is interrupted or does what it would have done. -/
theorem interrupting_failAt (n : ℤ) (e : Failure R) (site : Site R) {β : Type} (x : World σ R β) :
    (interrupting n).rel [site] (· = ·) (World.failAt n e site x) x := by
  cases site with
  | prox t =>
    -- Only calls of the proximal map are counted, and only the `n`-th of them fails.
    constructor
    · intro s c hspared
      have hcall : ¬ ((c + 1 : ℕ) : ℤ) = n := by
        have : n ≤ c ∨ (c + 1 : ℕ) < n := hspared
        omega
      have hplay : (World.failAt n e (.prox t) x).play (s, c)
          = ((x.play s).1, (x.play s).2, c + 1) := if_neg hcall
      rw [hplay]
      exact ⟨.refl _, rfl⟩
    · intro s c a u ha
      by_cases hcall : ((c + 1 : ℕ) : ℤ) = n
      · have hplay : (World.failAt n e (.prox t) x).play (s, c) = (.error e, s, c + 1) :=
          if_pos hcall
        rw [hplay] at ha
        cases ha
      · have hplay : (World.failAt n e (.prox t) x).play (s, c)
            = ((x.play s).1, (x.play s).2, c + 1) := if_neg hcall
        rw [hplay] at ha
        obtain ⟨-, rfl⟩ := Prod.mk.inj ha
        refine ⟨?_, rfl⟩
        show n ≤ c ∨ (c + 1 : ℕ) < n
        omega
  | forward part => exact interrupted_quiet n x
  | adjoint part => exact interrupted_quiet n x
  | measure => exact interrupted_quiet n x
  | callback => exact interrupted_quiet n x

/-! ## §3. Interrupted runs. -/

section Plans

variable {m : Type → Type}

/-- The sites at which a request is made ready are those of its operators. -/
theorem Request.proxes_setup (r : Request m R κ α) : Site.proxes r.setup = 0 := by
  have hstart : Site.proxes (if r.x0.isNone then [Site.adjoint .measurement] else [] : List (Site R))
      = 0 := by split <;> rfl
  have hblock : Site.proxes (if r.options.analysis.isSome then [Site.forward .analysis] else []
      : List (Site R)) = 0 := by split <;> rfl
  unfold Request.setup
  rw [Site.proxes_append, Site.proxes_append, hstart, hblock]
  split
  · rw [Site.proxes_repeated, Site.proxes_append, Site.proxes_forwards, Site.proxes_adjoints]
  · rfl

/-- There is one proximal map to a step. -/
theorem Request.proxes_block (r : Request m R κ α) (t : R) : Site.proxes (r.block r.seen t) = 1 := by
  have hforwards : Site.proxes (Site.prox t :: Site.forwards r.options.analysis.isSome) = 1 :=
    (Site.proxes_append [.prox t] _).trans (congrArg (1 + ·) (Site.proxes_forwards _))
  unfold Request.block Request.seen
  rw [Site.proxes_append, Site.proxes_append, Site.proxes_adjoints, hforwards, Site.proxes_shown]

end Plans

variable [Control R] [Kinds κ] [Entry α R κ]

namespace Solver

/-- A run with one call of the proximal map failing, beside the run itself. -/
theorem solve_interrupted (env : Environment (World σ R) R κ α) (r : Request (World σ R) R κ α)
    (n : ℤ) (e : Failure R) :
    Interrupted n (r.nIter.toNat * r.kIter.toNat) (Solution.Like True True)
      (solve (env.wrap World.quiet) (r.wrap (World.failAt n e))) (solve env r) := by
  have hr := Request.wrap_alike (interrupting n) (interrupting_failAt n e) r
  -- Each step calls the proximal map once, whatever else it calls.
  have hproxes : ∀ t, Site.proxes (Site.repeated r.nIter.toNat (Site.repeated r.kIter.toNat
      ((r.wrap (World.failAt n e)).block r.seen t))) = r.nIter.toNat * r.kIter.toNat := by
    intro t
    rw [r.block_wrap, Site.repeated_mul, Site.proxes_repeated, r.proxes_block, Nat.mul_one]
  have hsolve := hr.solve (env.wrap World.quiet) env (interrupting_tolerant n) rfl
    (fun _ => rfl) (fun _ _ => interrupted_quiet n _) (fun _ => interrupted_quiet n _)
    (G := Site.repeated r.nIter.toNat (Site.repeated r.kIter.toNat (r.block r.seen r.options.tau)))
    fun t x x' hx => by
      show Interrupted n (Site.proxes _) _ _ _
      rw [← r.block_wrap (World.failAt n e), hproxes, ← hproxes t]
      exact hx
  have hplan : Site.proxes ((r.wrap (World.failAt n e)).setup ++ Site.repeated r.nIter.toNat
      (Site.repeated r.kIter.toNat (r.block r.seen r.options.tau)))
        = r.nIter.toNat * r.kIter.toNat := by
    rw [Site.proxes_append, Request.proxes_setup, Nat.zero_add, ← r.block_wrap (World.failAt n e),
      hproxes]
  rw [← hplan]
  exact hsolve

/-- **A run that returns fails with the `n`-th call of its proximal map if and only if it makes
that many.** -/
theorem failAt_fails_iff (env : Environment (World σ R) R κ α) (r : Request (World σ R) R κ α)
    {s : σ} (hreturns : ∃ sol, ((solve env r).play s).1 = .ok sol) (n : ℤ) (e : Failure R) :
    (∃ e', ((solve (env.wrap World.quiet) (r.wrap (World.failAt n e))).play (s, 0)).1 = .error e')
      ↔ 1 ≤ n ∧ n ≤ (r.nIter.toNat * r.kIter.toNat : ℕ) := by
  have hrun := solve_interrupted env r n e
  obtain ⟨sol, hsol⟩ := hreturns
  constructor
  · rintro ⟨e', he'⟩
    by_contra hn
    have hspared : Spared n 0 (r.nIter.toNat * r.kIter.toNat) := by
      unfold Spared
      omega
    have hmatches := (hrun.same s 0 hspared).1
    rw [he', hsol] at hmatches
    cases hmatches
  · -- If it returned all the same, its calls were all spared, the `n`-th one among them.
    intro hn
    rcases hplay : (solve (env.wrap World.quiet) (r.wrap (World.failAt n e))).play (s, 0) with
      ⟨e' | sol', t⟩
    · exact ⟨e', rfl⟩
    · have hspared : n ≤ (0 : ℕ) ∨ (0 + r.nIter.toNat * r.kIter.toNat : ℕ) < n :=
        (hrun.spared s 0 sol' t hplay).1
      omega

end Solver

end PrimalDual
