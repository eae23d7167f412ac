/-
  PrimalDual.Proofs.Run.Concatenation
  ───────────────────────────────────
  **ONE RUN AFTER THE OTHER.**

  A run of `k₁ + k₂` steps is a run of `k₁` steps followed by one of `k₂`
  steps from its last iterates:

      last iterates     are those of the second run
      calls, records    are those of the first run, then those of the second
      averages          (k₁ mean₁ + k₂ mean₂) / (k₁ + k₂)

  Records are joined where they are last iterates.  The second run knows of
  the first its last iterates and the number of its steps, nothing else.

  Orbits are joined by `Problem.orbit_append`, sums by `sums_append`: the
  zeros with which the second sum begins have the shape of the last iterate,
  to which the first sum has already been stretched.  Whether a run returns
  is a matter of its orbit, its sums and its observers
  (`Observer.delivers_returns`), and each of these can be taken apart.
-/
import PrimalDual.Proofs.Run.Deliveries
import PrimalDual.Proofs.Run.Returns

namespace PrimalDual

open Tensor

variable {𝕜 : Type} [RCLike 𝕜]

/-! ## §1. Sums in two parts. -/

theorem getLastD_append {β : Type} (xs ys : List β) (default : β) :
    (xs ++ ys).getLastD default = ys.getLastD (xs.getLastD default) := by
  induction xs generalizing default with
  | nil => rfl
  | cons x xs ih => rw [List.cons_append, List.getLastD_cons, List.getLastD_cons, ih]

namespace Tensor

variable {x w : Tensor Unit 𝕜} {first rest : List (Tensor Unit 𝕜)}

/-- The sum of the iterates of two runs is the sum of their sums. -/
theorem sums_append (h : sumFrom x.zerosLike (first ++ rest) = .ok w) :
    ∃ a c, sumFrom x.zerosLike first = .ok a
      ∧ sumFrom (first.getLastD x).zerosLike rest = .ok c
      ∧ (a.add c : Except (Failure ℝ) _) = .ok w := by
  rw [sumFrom_append] at h
  obtain ⟨a, ha, h⟩ := bind_eq_ok.1 h
  -- Zeros in the shape of the last iterate add nothing to a sum that contains it.
  have hlast : Stretches (first.getLastD x).shape a.shape := by
    obtain ⟨hstart, hterms⟩ := sumFrom_stretches ha
    rcases List.mem_cons.1 (List.getLastD_mem_cons (l := first) (a := x)) with hlast | hlast
    · rw [hlast]
      exact hstart
    · exact hterms _ hlast
  obtain ⟨c, hc, hac⟩ := sumFrom_regroup (add_zerosLike hlast) h
  exact ⟨a, c, ha, hc, hac⟩

theorem mean_ok {m : Tensor Unit 𝕜} (h : mean x first = .ok m) :
    ∃ t, sumFrom x.zerosLike first = .ok t ∧ m = t.divBy (first.length : ℝ) := by
  obtain ⟨t, ht, h⟩ := map_eq_ok.1 h
  exact ⟨t, ht, h.symm⟩

/-- The mean over two runs is the weighted mean of their means. -/
theorem mean_append {m m₁ m₂ : Tensor Unit 𝕜} (hfirst : first ≠ []) (hrest : rest ≠ [])
    (h : mean x (first ++ rest) = .ok m) (h₁ : mean x first = .ok m₁)
    (h₂ : mean (first.getLastD x) rest = .ok m₂) :
    (·.divBy ((first.length : ℝ) + rest.length))
      <$> ((scale (first.length : ℝ) m₁).add (scale (rest.length : ℝ) m₂)
        : Except (Failure ℝ) _) = .ok m := by
  obtain ⟨w, hw, rfl⟩ := mean_ok h
  obtain ⟨a, ha, rfl⟩ := mean_ok h₁
  obtain ⟨c, hc, rfl⟩ := mean_ok h₂
  obtain ⟨a', c', ha', hc', hsum⟩ := sums_append hw
  cases ha.symm.trans ha'
  cases hc.symm.trans hc'
  have hne : ∀ {l : List (Tensor Unit 𝕜)}, l ≠ [] → (l.length : ℝ) ≠ 0 := fun hl =>
    Nat.cast_ne_zero.2 (List.length_pos_iff.2 hl).ne'
  rw [scale_divBy (hne hfirst), scale_divBy (hne hrest), hsum, List.length_append, Nat.cast_add]
  rfl

/-- The output of two runs: that of the second one or the weighted mean. -/
theorem output_append {averages : Bool} {m m₁ m₂ : Tensor Unit 𝕜} (hfirst : first ≠ [])
    (hrest : rest ≠ []) (h : output averages x (first ++ rest) = .ok m)
    (h₁ : output averages x first = .ok m₁)
    (h₂ : output averages (first.getLastD x) rest = .ok m₂) :
    (averages = false → m = m₂) ∧ (averages = true →
      (·.divBy ((first.length : ℝ) + rest.length))
        <$> ((scale (first.length : ℝ) m₁).add (scale (rest.length : ℝ) m₂)
          : Except (Failure ℝ) _) = .ok m) := by
  constructor
  · rintro rfl
    have hlast : m = (first ++ rest).getLastD x := (Except.ok.inj h).symm
    rw [hlast, getLastD_append]
    exact Except.ok.inj h₂
  · rintro rfl
    exact mean_append hfirst hrest h h₁ h₂

end Tensor

/-! ## §2. Observers in two parts. -/

namespace Observer

/-- The observer of the steps that follow `k` others. -/
def later (o : Observer (Except (Failure ℝ)) ℝ Unit 𝕜) (k : ℕ) :
    Observer (Except (Failure ℝ)) ℝ Unit 𝕜 :=
  { o with offset := o.offset + k }

variable {o : Observer (Except (Failure ℝ)) ℝ Unit 𝕜} {x0 y0 : Tensor Unit 𝕜}
variable {xs ys : List (Tensor Unit 𝕜)}

theorem accepts_append :
    o.Accepts (xs ++ ys) ↔ o.Accepts xs ∧ (o.later xs.length).Accepts ys := by
  -- Call `i` of the second run is call `xs.length + i` of both.
  have hplace : ∀ i : ℕ, o.offset + ((xs.length + i : ℕ) + 1 : ℤ)
      = (o.later xs.length).offset + (i + 1) := by
    intro i
    show _ = o.offset + (xs.length : ℤ) + (i + 1)
    push_cast
    ring
  constructor
  · rintro ⟨hmeasured, hshown⟩
    refine ⟨⟨?_, ?_⟩, ⟨?_, ?_⟩⟩
    · intro f hf x hx
      exact hmeasured f hf x (List.mem_append_left _ hx)
    · intro f hf i x hx
      have hi : i < xs.length := (List.getElem?_eq_some_iff.1 hx).1
      exact hshown f hf i x (by rwa [List.getElem?_append_left hi])
    · intro f hf x hx
      exact hmeasured f hf x (List.mem_append_right _ hx)
    · intro f hf i x hx
      rw [← hplace]
      refine hshown f hf (xs.length + i) x ?_
      rwa [List.getElem?_append_right (Nat.le_add_right _ _), Nat.add_sub_cancel_left]
  · rintro ⟨hfirst, hrest⟩
    constructor
    · intro f hf x hx
      rcases List.mem_append.1 hx with hx | hx
      · exact hfirst.measured f hf x hx
      · exact hrest.measured f hf x hx
    · intro f hf i x hx
      by_cases hi : i < xs.length
      · rw [List.getElem?_append_left hi] at hx
        exact hfirst.shown f hf i x hx
      · obtain ⟨j, rfl⟩ : ∃ j, i = xs.length + j := ⟨i - xs.length, by omega⟩
        rw [List.getElem?_append_right (by omega), Nat.add_sub_cancel_left] at hx
        rw [hplace]
        exact hrest.shown f hf j x hx

theorem accepts_typed (type : OutputType) : (o.typed type).Accepts xs ↔ o.Accepts xs :=
  ⟨fun h => ⟨h.measured, h.shown⟩, fun h => ⟨h.measured, h.shown⟩⟩

end Observer

/-! ## §3. Two runs. -/

/-- The result of a run and what it showed the callback. -/
abbrev Inner.Outcome (𝕜 : Type) [RCLike 𝕜] : Type :=
  InnerResult ℝ Unit 𝕜 × List (ℤ × Tensor Unit 𝕜)

/-- How a run of `k₁ + k₂` steps is composed.  Its first `k₁` steps are run twice: `opening`
returns the last iterates, from which `rest` goes on, and `first` returns what the whole run
is to return. -/
structure Observer.Joined (o : Observer (Except (Failure ℝ)) ℝ Unit 𝕜) (k₁ k₂ : ℕ)
    (whole opening first rest : Inner.Outcome 𝕜) : Prop where
  x : o.outputType.averagesPrimal = false → whole.1.x = rest.1.x
  y : o.outputType.averagesDual = false → whole.1.y = rest.1.y
  iterates : o.outputType.averagesPrimal = false →
    whole.1.iterates = opening.1.iterates ++ rest.1.iterates
  errors : o.outputType.averagesPrimal = false →
    whole.1.errors = opening.1.errors ++ rest.1.errors
  calls : whole.2 = opening.2 ++ rest.2
  meanX : o.outputType.averagesPrimal = true →
    (·.divBy ((k₁ : ℝ) + k₂))
      <$> ((Tensor.scale (k₁ : ℝ) first.1.x).add (Tensor.scale (k₂ : ℝ) rest.1.x)
        : Except (Failure ℝ) _) = .ok whole.1.x
  meanY : o.outputType.averagesDual = true →
    (·.divBy ((k₁ : ℝ) + k₂))
      <$> ((Tensor.scale (k₁ : ℝ) first.1.y).add (Tensor.scale (k₂ : ℝ) rest.1.y)
        : Except (Failure ℝ) _) = .ok whole.1.y

namespace Observer

variable {o : Observer (Except (Failure ℝ)) ℝ Unit 𝕜} {x0 y0 : Tensor Unit 𝕜}
variable {zs zs' : List (Tensor Unit 𝕜 × Tensor Unit 𝕜)}
variable {whole opening first rest : Inner.Outcome 𝕜}

/-- The second run goes on with the numbers of the calls. -/
theorem displays_append (o : Observer (Except (Failure ℝ)) ℝ Unit 𝕜)
    (xs ys : List (Tensor Unit 𝕜)) :
    o.displays (xs ++ ys) = o.displays xs ++ (o.later xs.length).displays ys := by
  unfold displays
  show (if o.callback.isSome then _ else _)
    = (if o.callback.isSome then _ else _) ++ if o.callback.isSome then _ else _
  by_cases hcallback : o.callback.isSome
  · rw [if_pos hcallback, if_pos hcallback, if_pos hcallback, List.mapIdx_append]
    refine congrArg (_ ++ ·) (congrArg (List.mapIdx · ys) ?_)
    funext i x
    refine Prod.ext ?_ rfl
    show o.offset + ((i + xs.length : ℕ) + 1 : ℤ) = o.offset + (xs.length : ℤ) + (i + 1)
    push_cast
    ring
  · rw [if_neg hcallback, if_neg hcallback, if_neg hcallback]
    rfl

/-- A run with last iterates as outputs hands on its last pair. -/
theorem Delivers.last {r : InnerResult ℝ Unit 𝕜} {calls : List (ℤ × Tensor Unit 𝕜)}
    (h : (o.typed .last).Delivers x0 y0 zs r calls) :
    r.x = (zs.map Prod.fst).getLastD x0 ∧ r.y = (zs.map Prod.snd).getLastD y0
      ∧ (r.x, r.y) = zs.getLastD (x0, y0) := by
  have hx : r.x = (zs.map Prod.fst).getLastD x0 := (Except.ok.inj h.x).symm
  have hy : r.y = (zs.map Prod.snd).getLastD y0 := (Except.ok.inj h.y).symm
  refine ⟨hx, hy, ?_⟩
  rw [hx, hy]
  exact Prod.ext (List.getLastD_map (a := (x0, y0))) (List.getLastD_map (a := (x0, y0)))

/-- The records of last iterates are joined. -/
theorem Delivers.records_joined (htype : o.outputType.averagesPrimal = false)
    (hwhole : o.Delivers x0 y0 (zs ++ zs') whole.1 whole.2)
    (hopening : (o.typed .last).Delivers x0 y0 zs opening.1 opening.2) {x1 y1 : Tensor Unit 𝕜}
    (hrest : (o.later zs.length).Delivers x1 y1 zs' rest.1 rest.2) :
    whole.1.iterates = opening.1.iterates ++ rest.1.iterates
      ∧ whole.1.errors = opening.1.errors ++ rest.1.errors := by
  obtain ⟨hiterates, hnone, hsome⟩ := hwhole.records_last htype
  obtain ⟨hiterates₁, hnone₁, hsome₁⟩ := hopening.records_last rfl
  obtain ⟨hiterates₂, hnone₂, hsome₂⟩ := hrest.records_last htype
  constructor
  · rw [hiterates, hiterates₁, hiterates₂, List.map_append, List.map_append]
    show (if o.store then _ else _) = (if o.store then _ else _) ++ if o.store then _ else _
    cases o.store <;> rfl
  · cases hf : o.error with
    | none =>
      rw [hnone hf, hnone₁ hf, hnone₂ hf]
      rfl
    | some f =>
      have hmeasured := hsome f hf
      rw [List.map_append] at hmeasured
      exact forall₂_ok_unique hmeasured (List.rel_append (hsome₁ f hf) (hsome₂ f hf))

/-- The deliveries of two runs make up that of the whole run. -/
theorem Delivers.joined (hzs : zs ≠ []) (hzs' : zs' ≠ [])
    (hwhole : o.Delivers x0 y0 (zs ++ zs') whole.1 whole.2)
    (hopening : (o.typed .last).Delivers x0 y0 zs opening.1 opening.2)
    (hfirst : o.Delivers x0 y0 zs first.1 first.2)
    (hrest : (o.later zs.length).Delivers opening.1.x opening.1.y zs' rest.1 rest.2) :
    o.Joined zs.length zs'.length whole opening first rest := by
  -- The second run begins in the last pair of the first.
  obtain ⟨hx, hy, -⟩ := hopening.last
  rw [hx, hy] at hrest
  have hne : ∀ {β γ : Type} {l : List β} (f : β → γ), l ≠ [] → l.map f ≠ [] :=
    fun f hl hnil => hl (List.map_eq_nil_iff.1 hnil)
  have hwholeX := hwhole.x
  have hwholeY := hwhole.y
  rw [List.map_append] at hwholeX hwholeY
  obtain ⟨hlastX, hmeanX⟩ := output_append (hne _ hzs) (hne _ hzs') hwholeX hfirst.x hrest.x
  obtain ⟨hlastY, hmeanY⟩ := output_append (hne _ hzs) (hne _ hzs') hwholeY hfirst.y hrest.y
  rw [List.length_map, List.length_map] at hmeanX hmeanY
  constructor
  · exact hlastX
  · exact hlastY
  · intro htype
    exact (Delivers.records_joined htype hwhole hopening hrest).1
  · intro htype
    exact (Delivers.records_joined htype hwhole hopening hrest).2
  · rw [hwhole.calls, hopening.calls, hrest.calls, List.map_append, displays_append,
      List.length_map]
    rfl
  · exact hmeanX
  · exact hmeanY

end Observer

namespace Inner

variable (p : Problem (Except (Failure ℝ)) ℝ Unit 𝕜) (o : Observer (Except (Failure ℝ)) ℝ Unit 𝕜)
variable (x0 y0 : Tensor Unit 𝕜)

/-- A run of `k₁ + k₂` steps is one run after the other. -/
structure Concatenates (k₁ k₂ : ℕ) : Prop where
  /-- Runs that returned fit together. -/
  joined : ∀ whole opening first rest, observed p o (k₁ + k₂) x0 y0 = .ok whole →
    observed p (o.typed .last) k₁ x0 y0 = .ok opening → observed p o k₁ x0 y0 = .ok first →
    observed p (o.later k₁) k₂ opening.1.x opening.1.y = .ok rest →
    o.Joined k₁ k₂ whole opening first rest
  /-- If the whole run returns, so do its parts. -/
  splits : o.Steady → (∃ whole, observed p o (k₁ + k₂) x0 y0 = .ok whole) →
    ∃ opening first rest, observed p (o.typed .last) k₁ x0 y0 = .ok opening
      ∧ observed p o k₁ x0 y0 = .ok first
      ∧ observed p (o.later k₁) k₂ opening.1.x opening.1.y = .ok rest
  /-- If its parts return, so does the whole run. -/
  returns : o.Steady → p.NeverShrinks → ∀ opening rest,
    observed p (o.typed .last) k₁ x0 y0 = .ok opening →
    observed p (o.later k₁) k₂ opening.1.x opening.1.y = .ok rest →
    ∃ whole, observed p o (k₁ + k₂) x0 y0 = .ok whole

variable {p o x0 y0} {k₁ k₂ : ℕ}

theorem joined_of_observed (hk₁ : 1 ≤ k₁) (hk₂ : 1 ≤ k₂) {whole opening first rest : Outcome 𝕜}
    (hwhole : observed p o (k₁ + k₂) x0 y0 = .ok whole)
    (hopening : observed p (o.typed .last) k₁ x0 y0 = .ok opening)
    (hfirst : observed p o k₁ x0 y0 = .ok first)
    (hrest : observed p (o.later k₁) k₂ opening.1.x opening.1.y = .ok rest) :
    o.Joined k₁ k₂ whole opening first rest := by
  obtain ⟨zs, horbit, hopens⟩ := delivers_of_observed hopening
  obtain ⟨zs₁, horbit₁, hbegins⟩ := delivers_of_observed hfirst
  cases horbit.symm.trans horbit₁
  obtain ⟨zs', horbit', hends⟩ := delivers_of_observed hrest
  rw [hopens.last.2.2] at horbit'
  -- The whole run has gone along both orbits.
  obtain ⟨all, hall, hdelivers⟩ := delivers_of_observed hwhole
  cases (Problem.orbit_append_ok.2 ⟨zs, zs', horbit, horbit', rfl⟩).symm.trans hall
  obtain rfl := Problem.length_orbit horbit
  obtain rfl := Problem.length_orbit horbit'
  exact Observer.Delivers.joined (List.length_pos_iff.1 hk₁) (List.length_pos_iff.1 hk₂) hdelivers
    hopens hbegins hends

theorem parts_of_whole (ho : o.Steady) {whole : Outcome 𝕜}
    (h : observed p o (k₁ + k₂) x0 y0 = .ok whole) :
    ∃ opening first rest, observed p (o.typed .last) k₁ x0 y0 = .ok opening
      ∧ observed p o k₁ x0 y0 = .ok first
      ∧ observed p (o.later k₁) k₂ opening.1.x opening.1.y = .ok rest := by
  obtain ⟨all, hall, hdelivers⟩ := delivers_of_observed h
  obtain ⟨zs, zs', horbit, horbit', rfl⟩ := Problem.orbit_append_ok.1 hall
  -- What the observers accept and the sums are taken apart.
  have haccepts := hdelivers.accepts ho
  obtain ⟨⟨t, ht⟩, u, hu⟩ := hdelivers.sums
  rw [List.map_append] at haccepts ht hu
  obtain ⟨haccepts, haccepts'⟩ := Observer.accepts_append.1 haccepts
  rw [List.length_map, Problem.length_orbit horbit] at haccepts'
  obtain ⟨t₁, t₂, ht₁, ht₂, -⟩ := sums_append ht
  obtain ⟨u₁, u₂, hu₁, hu₂, -⟩ := sums_append hu
  obtain ⟨opening, calls, hopening⟩ := Observer.delivers_returns (o := o.typed .last) (.inl rfl)
    ((Observer.accepts_typed .last).2 haccepts) ⟨t₁, ht₁⟩ ⟨u₁, hu₁⟩
  obtain ⟨first, calls₁, hfirst⟩ := Observer.delivers_returns ho haccepts ⟨t₁, ht₁⟩ ⟨u₁, hu₁⟩
  obtain ⟨hx, hy, hpair⟩ := hopening.last
  rw [← hx] at ht₂
  rw [← hy] at hu₂
  rw [← hpair] at horbit'
  obtain ⟨rest, calls₂, hrest⟩ := Observer.delivers_returns (o := o.later k₁) ho haccepts'
    ⟨t₂, ht₂⟩ ⟨u₂, hu₂⟩
  exact ⟨_, _, _, observed_of_delivers horbit hopening, observed_of_delivers horbit hfirst,
    observed_of_delivers horbit' hrest⟩

theorem whole_of_parts (ho : o.Steady) (hp : p.NeverShrinks) {opening rest : Outcome 𝕜}
    (hopening : observed p (o.typed .last) k₁ x0 y0 = .ok opening)
    (hrest : observed p (o.later k₁) k₂ opening.1.x opening.1.y = .ok rest) :
    ∃ whole, observed p o (k₁ + k₂) x0 y0 = .ok whole := by
  obtain ⟨zs, horbit, hopens⟩ := delivers_of_observed hopening
  obtain ⟨zs', horbit', hends⟩ := delivers_of_observed hrest
  rw [hopens.last.2.2] at horbit'
  have hall := Problem.orbit_append_ok.2 ⟨zs, zs', horbit, horbit', rfl⟩
  have haccepts : o.Accepts ((zs ++ zs').map Prod.fst) := by
    rw [List.map_append, Observer.accepts_append, List.length_map, Problem.length_orbit horbit]
    exact ⟨(Observer.accepts_typed .last).1 (hopens.accepts (.inl rfl)), hends.accepts ho⟩
  exact observed_returns hp ho hall haccepts

/-- The problem of one measurement of one entry. -/
noncomputable def scalarProblem : Problem (Except (Failure ℝ)) ℝ Unit ℝ where
  b := ofVec [1] (single 2)
  K := .identity
  primalStep := 1 / 2
  dualStep := 1 / 2
  epsilon := 1
  prox := Regulariser.prox .zero
  q := .whole 0

/-- Its primal averages are recorded and measured, its iterates are shown. -/
noncomputable def scalarObserver : Observer (Except (Failure ℝ)) ℝ Unit ℝ where
  al := 3
  scale := 4
  outputType := .averagedPrimal
  store := true
  error := some fun x => x.normValue
  callback := some fun _ _ => .ok ()
  offset := 7

theorem scalarObserver_faultless : scalarObserver.Faultless := by
  constructor
  · intro f hf x
    cases hf
    exact ⟨_, normValue_eq x⟩
  · intro f hf k x
    cases hf
    rfl

theorem scalarProblem_neverShrinks : scalarProblem.NeverShrinks := by
  intro v t x h
  cases h
  exact .refl v.shape

end Inner

end PrimalDual
