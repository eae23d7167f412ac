/-
  PrimalDual.Proofs.Run.History
  ─────────────────────────────
  **THE RECORDED HISTORY AND THE RESULT.**

  A run that stores its iterates records one tensor for each of its
  `n` restarts of `k` steps: the last iterate or the average so far.  What is
  recorded, what the error measure is applied to, what the callback is shown
  and what one restart hands to the next are computed in four different
  places, with four different placements of the factors `al`, `k` and
  `scale`.  They fit together:

      recorded j i  =  shown j i                              last iterates
      recorded j i  =  (shown j 0 + … + shown j i) / (i + 1)  averages
      start (j + 1) =  recorded j (k - 1) / scale
      solution      =  recorded (n - 1) (k - 1)

  All of it is read off the course of the run.  A run that stores and shows
  everything has the same course as one that does not (`prepare_recorded`,
  `course_recorded`), and along a course each record is known by its restart
  and step (`recordsAlong_snapshots`, `path_sums`, `next_psi`).
-/
import PrimalDual.Proofs.Exact.Entries
import PrimalDual.Proofs.Inner.Inversion
import PrimalDual.Proofs.Run.Recorded
import PrimalDual.Proofs.Run.Returns

namespace PrimalDual

open Tensor

/-! ## §1. Tables. -/

/-- `n` rows of `k` entries. -/
def table {β : Type} (n k : ℕ) (t : ℕ → ℕ → β) : List (List β) :=
  (List.range n).map fun j => (List.range k).map (t j)

/-- The entry of a list of rows. -/
def entryOf {β : Type} (rows : List (List β)) (default : β) (j i : ℕ) : β :=
  (rows.getD j []).getD i default

theorem entryOf_eq {β : Type} {rows : List (List β)} {default b : β} {j i : ℕ} {row : List β}
    (hrow : rows[j]? = some row) (hb : row[i]? = some b) : entryOf rows default j i = b := by
  unfold entryOf
  rw [List.getD_eq_getElem?_getD, List.getD_eq_getElem?_getD, hrow, Option.getD_some, hb,
    Option.getD_some]

/-- Rows of one length are the table of their entries. -/
theorem table_entryOf {β : Type} {rows : List (List β)} {default : β} {n k : ℕ}
    (hn : rows.length = n) (hk : ∀ row ∈ rows, row.length = k) :
    table n k (entryOf rows default) = rows := by
  apply List.ext_getElem (by simp [table, hn])
  intro j hj hj'
  have hrow : rows[j]? = some rows[j] := List.getElem?_eq_getElem hj'
  have hlength : rows[j].length = k := hk _ (List.getElem_mem hj')
  apply List.ext_getElem (by simp [table, hlength])
  intro i hi hi'
  have hentry : rows[j][i]? = some rows[j][i] := List.getElem?_eq_getElem hi'
  simp only [table, List.getElem_map, List.getElem_range]
  exact entryOf_eq hrow hentry

theorem table_congr {β : Type} {n k : ℕ} {t t' : ℕ → ℕ → β}
    (h : ∀ j < n, ∀ i < k, t j i = t' j i) : table n k t = table n k t' := by
  apply List.map_congr_left
  intro j hj
  apply List.map_congr_left
  intro i hi
  exact h j (List.mem_range.1 hj) i (List.mem_range.1 hi)

/-- Where an entry of rows of one length stands when the rows are joined. -/
theorem getElem?_flatten {β : Type} {k : ℕ} {rows : List (List β)}
    (hk : ∀ row ∈ rows, row.length = k) {j i : ℕ} (hi : i < k) {row : List β}
    (hrow : rows[j]? = some row) : rows.flatten[j * k + i]? = row[i]? := by
  induction rows generalizing j with
  | nil => cases hrow
  | cons first rest ih =>
    have hfirst : first.length = k := hk first (List.mem_cons_self ..)
    rw [List.flatten_cons]
    cases j with
    | zero =>
      cases hrow
      rw [Nat.zero_mul, Nat.zero_add, List.getElem?_append_left (by omega)]
    | succ j =>
      have hplace : (j + 1) * k + i = first.length + (j * k + i) := by
        rw [hfirst, Nat.succ_mul]
        omega
      rw [hplace, List.getElem?_append_right (Nat.le_add_right _ _), Nat.add_sub_cancel_left]
      exact ih (fun row hmem => hk row (List.mem_cons_of_mem _ hmem)) hrow

theorem length_flatten_table {β : Type} (n k : ℕ) (t : ℕ → ℕ → β) :
    (table n k t).flatten.length = n * k := by
  unfold table
  rw [List.length_flatten, List.map_map]
  have hrow : List.length ∘ (fun j => (List.range k).map (t j)) = fun _ => k := by
    funext j
    show ((List.range k).map (t j)).length = k
    rw [List.length_map, List.length_range]
  rw [hrow, List.map_const', List.sum_replicate, List.length_range, smul_eq_mul]

theorem getElem?_flatten_table {β : Type} {n k j i : ℕ} (t : ℕ → ℕ → β) (hj : j < n) (hi : i < k) :
    (table n k t).flatten[j * k + i]? = some (t j i) := by
  have hrow : (table n k t)[j]? = some ((List.range k).map (t j)) := by
    unfold table
    rw [List.getElem?_map, List.getElem?_range hj, Option.map_some]
  have hlengths : ∀ row ∈ table n k t, row.length = k := by
    intro row hmem
    obtain ⟨l, -, rfl⟩ := List.mem_map.1 hmem
    rw [List.length_map, List.length_range]
  rw [getElem?_flatten hlengths hi hrow, List.getElem?_map, List.getElem?_range hi, Option.map_some]

theorem Forall₂.getElem? {β γ : Type} {P : β → γ → Prop} {xs : List β} {ys : List γ}
    (h : List.Forall₂ P xs ys) {i : ℕ} {x : β} (hx : xs[i]? = some x) :
    ∃ y, ys[i]? = some y ∧ P x y := by
  induction h generalizing i with
  | nil => cases hx
  | cons hfirst _ ih =>
    cases i with
    | zero =>
      cases hx
      exact ⟨_, rfl, hfirst⟩
    | succ i => exact ih hx

/-! ## §2. Sums. -/

variable {𝕜 : Type} [RCLike 𝕜]

/-- `x + x₁ + … + xₙ`, added from the left. -/
noncomputable def Tensor.sumFrom (x : Tensor Unit 𝕜) (xs : List (Tensor Unit 𝕜)) :
    Except (Failure ℝ) (Tensor Unit 𝕜) :=
  xs.foldlM Tensor.add x

namespace Tensor

theorem sumFrom_cons (x y : Tensor Unit 𝕜) (xs : List (Tensor Unit 𝕜)) :
    sumFrom x (y :: xs) = x.add y >>= fun z => sumFrom z xs := List.foldlM_cons

theorem sumFrom_scale (c : ℝ) {x z : Tensor Unit 𝕜} {xs : List (Tensor Unit 𝕜)}
    (h : sumFrom x xs = .ok z) : sumFrom (scale c x) (xs.map (scale c)) = .ok (scale c z) := by
  induction xs generalizing x with
  | nil =>
    cases h
    rfl
  | cons y xs ih =>
    rw [sumFrom_cons] at h
    obtain ⟨w, hw, h⟩ := bind_eq_ok.1 h
    rw [List.map_cons, sumFrom_cons, add_scale, hw]
    exact ih h

theorem scale_zerosLike (c : ℝ) (x : Tensor Unit 𝕜) : scale c x.zerosLike = x.zerosLike :=
  scale_zeros c x.shape

/-- A sum that begins with zeros begins with its first term, where that can stretch them. -/
theorem sumFrom_zerosLike {x y : Tensor Unit 𝕜} (h : Stretches x.shape y.shape)
    (ys : List (Tensor Unit 𝕜)) : sumFrom x.zerosLike (y :: ys) = sumFrom y ys := by
  rw [sumFrom_cons, zerosLike_add h]
  rfl

theorem sumFrom_append (x : Tensor Unit 𝕜) (xs ys : List (Tensor Unit 𝕜)) :
    sumFrom x (xs ++ ys) = sumFrom x xs >>= fun z => sumFrom z ys := List.foldlM_append

/-- What is added later may be added up first. -/
theorem sumFrom_regroup {x c a w : Tensor Unit 𝕜} {ys : List (Tensor Unit 𝕜)}
    (hc : (x.add c : Except (Failure ℝ) _) = .ok a) (h : sumFrom a ys = .ok w) :
    ∃ v, sumFrom c ys = .ok v ∧ (x.add v : Except (Failure ℝ) _) = .ok w := by
  induction ys generalizing c a with
  | nil =>
    cases h
    exact ⟨c, rfl, hc⟩
  | cons y ys ih =>
    rw [sumFrom_cons] at h
    obtain ⟨b, hb, h⟩ := bind_eq_ok.1 h
    obtain ⟨d, hd, hxd⟩ := add_assoc_ok hc hb
    obtain ⟨v, hv, hxv⟩ := ih hxd h
    refine ⟨v, ?_, hxv⟩
    rw [sumFrom_cons, hd]
    exact hv

/-- The terms of a sum stretch to it. -/
theorem sumFrom_stretches {x w : Tensor Unit 𝕜} {ys : List (Tensor Unit 𝕜)}
    (h : sumFrom x ys = .ok w) :
    Stretches x.shape w.shape ∧ ∀ y ∈ ys, Stretches y.shape w.shape := by
  induction ys generalizing x with
  | nil =>
    cases h
    exact ⟨.refl _, fun y hy => absurd hy (List.not_mem_nil)⟩
  | cons y ys ih =>
    rw [sumFrom_cons] at h
    obtain ⟨a, ha, h⟩ := bind_eq_ok.1 h
    obtain ⟨hxa, hya⟩ := stretches_of_stretch (add_ok ha).1
    obtain ⟨haw, hys⟩ := ih h
    refine ⟨hxa.trans haw, ?_⟩
    intro z hz
    rcases List.mem_cons.1 hz with rfl | hz
    · exact hya.trans haw
    · exact hys z hz

/-- Terms of which each stretches the one before it can be added up. -/
theorem sumFrom_of_chain {x : Tensor Unit 𝕜} {ys : List (Tensor Unit 𝕜)}
    (h : List.IsChain (fun a b => Stretches a.shape b.shape) (x :: ys)) :
    ∃ w, sumFrom x ys = .ok w := by
  induction ys generalizing x with
  | nil => exact ⟨x, rfl⟩
  | cons y ys ih =>
    rw [List.isChain_cons_cons] at h
    obtain ⟨hxy, hchain⟩ := h
    obtain ⟨a, ha⟩ : ∃ a, (x.add y : Except (Failure ℝ) _) = .ok a :=
      ⟨_, addMultiple_of_stretch _ (stretch_of_stretches hxy)⟩
    -- The sum so far has the shape of its last term.
    have hshape : a.shape = y.shape := by
      have hsum := (add_ok ha).1
      rw [stretch_of_stretches hxy, Option.some.injEq] at hsum
      exact hsum.symm
    rw [sumFrom_cons, ha]
    refine ih ?_
    cases ys with
    | nil => exact .singleton a
    | cons z ys =>
      rw [List.isChain_cons_cons] at hchain ⊢
      rwa [hshape]

end Tensor

/-- Along a path the sums are those of the iterates so far. -/
theorem Problem.path_sums {p : Problem (Except (Failure ℝ)) ℝ Unit 𝕜} {n i : ℕ}
    {s it : Iterate Unit 𝕜} {path : List (Iterate Unit 𝕜)} (h : p.path n s = .ok path)
    (hi : path[i]? = some it) :
    sumFrom s.xSum ((path.take (i + 1)).map Iterate.x) = .ok it.xSum
      ∧ sumFrom s.ySum ((path.take (i + 1)).map Iterate.y) = .ok it.ySum := by
  induction i generalizing n s path with
  | zero =>
    cases n with
    | zero =>
      cases h
      cases hi
    | succ n =>
      obtain ⟨next, rest, hnext, -, rfl⟩ := path_succ_ok h
      obtain ⟨hx, hy⟩ := advance_sums hnext
      cases hi
      rw [List.take_succ_cons, List.map_cons, List.map_cons, sumFrom_cons, sumFrom_cons, hx, hy]
      exact ⟨rfl, rfl⟩
  | succ i ih =>
    cases n with
    | zero =>
      cases h
      cases hi
    | succ n =>
      obtain ⟨next, rest, hnext, hrest, rfl⟩ := path_succ_ok h
      obtain ⟨hx, hy⟩ := advance_sums hnext
      rw [List.take_succ_cons, List.map_cons, List.map_cons, sumFrom_cons, sumFrom_cons, hx, hy]
      exact ih hrest hi

/-- A proximal map that never shrinks its argument does not shrink the iterate of the first
step. -/
theorem Problem.path_stretches {p : Problem (Except (Failure ℝ)) ℝ Unit 𝕜}
    (hprox : ∀ v t x, p.prox v t = .ok x → Stretches v.shape x.shape) {n : ℕ} {s it : Iterate Unit 𝕜}
    {path : List (Iterate Unit 𝕜)} (h : p.path n s = .ok path) (hi : path[0]? = some it) :
    Stretches s.x.shape it.x.shape := by
  cases n with
  | zero =>
    cases h
    cases hi
  | succ n =>
    obtain ⟨next, rest, hnext, -, rfl⟩ := path_succ_ok h
    cases hi
    obtain ⟨u, v, e, image, -, hv, hx, -⟩ := advance_ok hnext
    exact (stretches_of_stretch (addMultiple_ok hv).1).1.trans (hprox v _ _ hx)

/-! ## §3. One restart. -/

namespace Schedule

variable {s : Schedule (Except (Failure ℝ)) ℝ Unit 𝕜} {state : RestartState ℝ Unit 𝕜}
variable {leg : Leg ℝ Unit 𝕜} {al : ℝ}

/-- The type of a restart is that of its schedule. -/
theorem leg_type {type : OutputType} (htype : s.outputType = .whole type.number)
    (h : s.leg state al = .ok leg) : leg.type = type := by
  obtain ⟨step, -, hfound, -⟩ := leg_ok h
  rw [htype, OutputType.find_number] at hfound
  exact (Except.ok.inj hfound).symm

variable {i : ℕ} {it : Iterate Unit 𝕜}

theorem stored_last (htype : leg.type.averagesPrimal = false) :
    Tensor.scale s.scale ((s.observer leg.al leg.type 0).snapshot (i + 1) it)
      = (s.observer leg.al leg.type 0).shown it := by
  have hsnapshot : (s.observer leg.al leg.type 0).snapshot (i + 1) it = it.x.divBy leg.al := by
    unfold Observer.snapshot
    rw [show (s.observer leg.al leg.type 0).outputType = leg.type from rfl, htype,
      if_neg (Bool.false_ne_true)]
    rfl
  rw [hsnapshot]
  show _ = (Tensor.scale s.scale it.x).divBy leg.al
  rw [divBy_eq_scale, divBy_eq_scale, scale_scale, scale_scale, mul_comm]

/-- What a restart that returns averages stores is the average of what it shows. -/
theorem stored_average (htype : leg.type.averagesPrimal = true) (h : s.leg state al = .ok leg)
    (hi : leg.path[i]? = some it) :
    ∃ total, sumFrom state.psi.zerosLike ((s.displayed leg).take (i + 1)) = .ok total
      ∧ Tensor.scale s.scale ((s.observer leg.al leg.type 0).snapshot (i + 1) it)
        = total.divBy ((i : ℝ) + 1) := by
  obtain ⟨step, -, -, hpath, -, rfl, -⟩ := leg_ok h
  have hsnapshot : (s.observer leg.al leg.type 0).snapshot (i + 1) it
      = it.xSum.divBy (leg.al * ((i : ℝ) + 1)) := by
    unfold Observer.snapshot
    rw [show (s.observer leg.al leg.type 0).outputType = leg.type from rfl, htype, if_pos rfl]
    refine congrArg it.xSum.divBy ?_
    rw [Control.ofInt_real]
    push_cast
    rfl
  have hshown : (s.observer leg.al leg.type 0).shown
      = fun it => Tensor.scale (leg.al⁻¹ * s.scale) it.x := by
    funext it
    show (Tensor.scale s.scale it.x).divBy leg.al = _
    rw [divBy_eq_scale, scale_scale]
  -- Scaling every term scales the sum.
  have hsum := sumFrom_scale (leg.al⁻¹ * s.scale) (Problem.path_sums hpath hi).1
  refine ⟨Tensor.scale (leg.al⁻¹ * s.scale) it.xSum, ?_, ?_⟩
  · rw [List.map_map] at hsum
    unfold displayed
    rw [← List.map_take, hshown]
    refine Eq.trans (congrArg (sumFrom · _) ?_) hsum
    exact (scale_zerosLike _ _).symm
  · rw [hsnapshot, divBy_eq_scale, divBy_eq_scale, scale_scale, scale_scale, mul_inv]
    congr 1
    ring

/-- A restart hands on what it stores last, in the units of the schedule. -/
theorem next_psi (hscale : s.scale ≠ 0) (hk : 1 ≤ s.kIter) (h : s.leg state al = .ok leg) :
    ∃ it, leg.path[s.kIter.toNat - 1]? = some it ∧ leg.next.psi = (Tensor.scale s.scale
      ((s.observer leg.al leg.type 0).snapshot (s.kIter.toNat - 1 + 1) it)).divBy s.scale := by
  obtain ⟨step, -, -, hpath, -, rfl, hnext⟩ := leg_ok h
  have hlength := Problem.length_path hpath
  obtain ⟨it, hit⟩ : ∃ it, leg.path[s.kIter.toNat - 1]? = some it :=
    ⟨_, List.getElem?_eq_getElem (by omega)⟩
  have hlast : leg.path.getLastD (first state leg.al) = it := by
    rw [List.getLastD_eq_getLast?, List.getLast?_eq_getElem?, hlength, hit, Option.getD_some]
  have hcount : ((s.kIter.toNat - 1 + 1 : ℕ) : ℤ) = s.kIter := by omega
  refine ⟨it, hit, ?_⟩
  rw [hnext, hlast, divBy_eq_scale _ s.scale, scale_scale, inv_mul_cancel₀ hscale, scale_one]
  unfold handOn Inner.result Observer.snapshot
  rw [hcount]
  show (if leg.type.averagesPrimal = true then it.xSum.divBy (Control.ofInt s.kIter)
      else it.x).divBy leg.al
    = if leg.type.averagesPrimal = true then it.xSum.divBy (leg.al * Control.ofInt s.kIter)
      else it.x.divBy leg.al
  by_cases htype : leg.type.averagesPrimal
  · rw [if_pos htype, if_pos htype, divBy_eq_scale, divBy_eq_scale, divBy_eq_scale, scale_scale,
      mul_inv]
  · rw [if_neg htype, if_neg htype]

end Schedule

/-! ## §4. All restarts. -/

namespace Schedule

/-- The primal estimate in which a restart of a course begins. -/
def startAt (state : RestartState ℝ Unit 𝕜) (legs : List (Leg ℝ Unit 𝕜)) (j : ℕ) : Tensor Unit 𝕜 :=
  (Leg.last state (legs.take j)).psi

/-- What is stored of a step of a restart of a course. -/
noncomputable def storedAt (s : Schedule (Except (Failure ℝ)) ℝ Unit 𝕜)
    (legs : List (Leg ℝ Unit 𝕜)) : ℕ → ℕ → Tensor Unit 𝕜 :=
  entryOf (legs.map s.stored) (zeros () [])

/-- What is shown of a step of a restart of a course. -/
noncomputable def shownAt (s : Schedule (Except (Failure ℝ)) ℝ Unit 𝕜)
    (legs : List (Leg ℝ Unit 𝕜)) : ℕ → ℕ → Tensor Unit 𝕜 :=
  entryOf (legs.map s.displayed) (zeros () [])

variable {s : Schedule (Except (Failure ℝ)) ℝ Unit 𝕜} {state : RestartState ℝ Unit 𝕜}
variable {legs : List (Leg ℝ Unit 𝕜)} {n j i : ℕ}

/-- What is known of a step of a restart of a course. -/
theorem course_step (h : s.course n state = .ok legs) (hj : j < n) (hi : i < s.kIter.toNat) :
    ∃ leg it, s.leg (Leg.last state (legs.take j)) leg.al = .ok leg ∧ leg.path[i]? = some it
      ∧ Leg.last state (legs.take (j + 1)) = leg.next
      ∧ s.storedAt legs j i
        = Tensor.scale s.scale ((s.observer leg.al leg.type 0).snapshot (i + 1) it)
      ∧ s.shownAt legs j i = (s.observer leg.al leg.type 0).shown it
      ∧ (s.displayed leg).take (i + 1) = (List.range (i + 1)).map (s.shownAt legs j) := by
  obtain ⟨leg, hplace, hleg, hnext⟩ := course_leg hj h
  have hlength := length_leg hleg
  have hrow : ∀ {rows : Leg ℝ Unit 𝕜 → List (Tensor Unit 𝕜)},
      (legs.map rows)[j]? = some (rows leg) := by
    intro rows
    rw [List.getElem?_map, hplace, Option.map_some]
  have hit : ∀ l (hl : l < s.kIter.toNat), leg.path[l]? = some (leg.path.get ⟨l, by omega⟩) :=
    fun l hl => List.getElem?_eq_getElem _
  refine ⟨leg, _, hleg, hit i hi, hnext, entryOf_eq hrow (getElem?_stored (hit i hi)),
    entryOf_eq hrow (getElem?_displayed (hit i hi)), ?_⟩
  -- The rows agree up to the place of the step, and both end there.
  refine List.ext_getElem? fun l => ?_
  by_cases hl : l < i + 1
  · have hshown := getElem?_displayed (s := s) (hit l (by omega))
    rw [List.getElem?_take_of_lt hl, List.getElem?_map, List.getElem?_range hl, Option.map_some,
      hshown]
    exact congrArg some (entryOf_eq hrow hshown).symm
  · rw [List.getElem?_eq_none (by rw [List.length_take]; omega),
      List.getElem?_eq_none (by rw [List.length_map, List.length_range]; omega)]

variable {type : OutputType}

theorem storedAt_last (h : s.course n state = .ok legs)
    (htype : s.outputType = .whole type.number) (hlast : type.averagesPrimal = false)
    (hj : j < n) (hi : i < s.kIter.toNat) : s.storedAt legs j i = s.shownAt legs j i := by
  obtain ⟨leg, it, hleg, -, -, hstored, hshown, -⟩ := course_step h hj hi
  rw [← leg_type htype hleg] at hlast
  rw [hstored, hshown, stored_last hlast]

theorem storedAt_average (h : s.course n state = .ok legs)
    (htype : s.outputType = .whole type.number) (haverage : type.averagesPrimal = true)
    (hj : j < n) (hi : i < s.kIter.toNat) :
    ∃ total, sumFrom (startAt state legs j).zerosLike ((List.range (i + 1)).map (s.shownAt legs j))
        = .ok total
      ∧ s.storedAt legs j i = total.divBy ((i : ℝ) + 1) := by
  obtain ⟨leg, it, hleg, hit, -, hstored, -, hdisplayed⟩ := course_step h hj hi
  rw [← leg_type htype hleg] at haverage
  obtain ⟨total, htotal, haverage⟩ := stored_average haverage hleg hit
  rw [← hdisplayed, hstored]
  exact ⟨total, htotal, haverage⟩

/-- Where the proximal map never shrinks its argument, the first iterate of a restart stretches its
start. -/
theorem shownAt_stretches (h : s.course n state = .ok legs)
    (hprox : ∀ v t x, s.prox v t = .ok x → Stretches v.shape x.shape) (hj : j < n)
    (hk : 0 < s.kIter.toNat) :
    Stretches (startAt state legs j).shape (s.shownAt legs j 0).shape := by
  obtain ⟨leg, it, hleg, hit, -, -, hshown, -⟩ := course_step h hj hk
  obtain ⟨step, -, -, hpath, -⟩ := leg_ok hleg
  rw [hshown]
  exact Problem.path_stretches hprox hpath hit

theorem storedAt_mean (h : s.course n state = .ok legs)
    (htype : s.outputType = .whole type.number) (haverage : type.averagesPrimal = true)
    (hprox : ∀ v t x, s.prox v t = .ok x → Stretches v.shape x.shape) (hj : j < n)
    (hi : i < s.kIter.toNat) :
    ∃ total, sumFrom (s.shownAt legs j 0) ((List.range i).map fun l => s.shownAt legs j (l + 1))
        = .ok total
      ∧ s.storedAt legs j i = total.divBy ((i : ℝ) + 1) := by
  obtain ⟨total, htotal, hstored⟩ := storedAt_average h htype haverage hj hi
  refine ⟨total, ?_, hstored⟩
  rw [List.range_succ_eq_map, List.map_cons, List.map_map,
    sumFrom_zerosLike (shownAt_stretches h hprox hj (by omega))] at htotal
  exact htotal

/-- A restart begins with what the one before it stored last. -/
theorem startAt_succ (h : s.course n state = .ok legs) (hscale : s.scale ≠ 0) (hk : 1 ≤ s.kIter)
    (hj : j < n) :
    startAt state legs (j + 1) = (s.storedAt legs j (s.kIter.toNat - 1)).divBy s.scale := by
  have hlast : s.kIter.toNat - 1 < s.kIter.toNat := by omega
  obtain ⟨leg, it, hleg, hit, hnext, hstored, -⟩ := course_step h hj hlast
  obtain ⟨it', hit', hpsi⟩ := next_psi hscale hk hleg
  cases hit.symm.trans hit'
  unfold startAt
  rw [hnext, hpsi, hstored]

theorem table_storedAt (h : s.course n state = .ok legs) :
    table n s.kIter.toNat (s.storedAt legs) = legs.map s.stored := by
  apply table_entryOf ((List.length_map _).trans (length_course h))
  intro row hrow
  obtain ⟨leg, hleg, rfl⟩ := List.mem_map.1 hrow
  rw [length_stored, length_of_mem h hleg]

/-- What a callback is shown in all restarts. -/
theorem calls_table (h : s.course n state = .ok legs) (hk : 1 ≤ s.kIter)
    (hcallback : s.callback.isSome) :
    (s.calls 0 legs).filterMap Call.shown? = (table n s.kIter.toNat fun j i =>
      (((j * s.kIter.toNat + i + 1 : ℕ) : ℤ), s.shownAt legs j i)).flatten := by
  rw [calls_shown hcallback]
  refine congrArg List.flatten ?_
  obtain ⟨rows, hrows⟩ : ∃ rows, rows = legs.mapIdx fun l leg =>
      (s.displayed leg).mapIdx fun i x => ((0 + l : ℕ) * s.kIter + (i + 1 : ℕ), x) := ⟨_, rfl⟩
  -- The rows are all of one length, so they are the table of their entries.
  have htable : table n s.kIter.toNat (entryOf rows (0, zeros () [])) = rows := by
    refine table_entryOf ?_ ?_
    · rw [hrows, List.length_mapIdx, length_course h]
    · intro row hrow
      rw [hrows] at hrow
      obtain ⟨l, hl, rfl⟩ := List.mem_mapIdx.1 hrow
      rw [List.length_mapIdx, length_displayed, length_of_mem h (List.getElem_mem _)]
  rw [← hrows, ← htable]
  apply table_congr
  intro j hj i hi
  obtain ⟨leg, hplace, hleg, -⟩ := course_leg hj h
  have hlength := length_leg hleg
  have hshown := getElem?_displayed (s := s)
    (List.getElem?_eq_getElem (show i < leg.path.length by omega))
  have hdisplayed : (legs.map s.displayed)[j]? = some (s.displayed leg) := by
    rw [List.getElem?_map, hplace, Option.map_some]
  have hrow : rows[j]? = some ((s.displayed leg).mapIdx fun i x =>
      ((0 + j : ℕ) * s.kIter + (i + 1 : ℕ), x)) := by
    rw [hrows, List.getElem?_mapIdx, hplace, Option.map_some]
  have hcount : (((0 + j : ℕ) : ℤ) * s.kIter + (i + 1 : ℕ)) = (j * s.kIter.toNat + i + 1 : ℕ) := by
    rw [Nat.zero_add]
    push_cast
    rw [Int.toNat_of_nonneg (by omega)]
    ring
  rw [show s.shownAt legs j i = _ from entryOf_eq hdisplayed hshown, ← hcount]
  refine entryOf_eq hrow ?_
  rw [List.getElem?_mapIdx, hshown, Option.map_some]

end Schedule

/-! ## §5. Runs. -/

namespace Solver

/-- How the records of a run that returned `sol` fit together.  `full` and `log` are the
solution and the calls of the run that stores and shows everything, `start j` is the primal
estimate in which restart `j` begins, and `shown j i` and `recorded j i` are what is shown and
recorded after its step `i`. -/
structure History (env : Environment (Except (Failure ℝ)) ℝ Unit 𝕜)
    (r : Request (Except (Failure ℝ)) ℝ Unit 𝕜) (sol full : Solution (Except (Failure ℝ)) ℝ Unit 𝕜)
    (log : List (Call Unit 𝕜)) (n k : ℕ) (start : ℕ → Tensor Unit 𝕜)
    (shown recorded : ℕ → ℕ → Tensor Unit 𝕜) : Prop where
  counts : r.nIter = n ∧ r.kIter = k ∧ 0 < n ∧ 0 < k
  /-- Storing and showing everything changes nothing else. -/
  recording : solve env r.recorded = .ok full ∧ watch env r.recorded = .ok (full.watched, log)
    ∧ full.x = sol.x ∧ full.y = sol.y ∧ full.errors = sol.errors
  iterates : full.iterates = table n k recorded
  stored : sol.iterates = if r.options.store then table n k recorded else []
  unmeasured : r.options.error = none → sol.errors = []
  measured : ∀ f ∈ r.options.error, sol.errors.length = n * k ∧ ∀ j < n, ∀ i < k, ∃ e,
    sol.errors[j * k + i]? = some e ∧ f (recorded j i) = .ok e
  /-- The callback is shown every iterate once, numbered from 1 and in order. -/
  displayed : log.filterMap Call.shown?
    = (table n k fun j i => (((j * k + i + 1 : ℕ) : ℤ), shown j i)).flatten
  /-- A callback of the request itself is shown the same. -/
  displayedToCaller : r.callback.isSome → ∃ own, watch env r = .ok (sol.watched, own)
    ∧ own.filterMap Call.shown? = log.filterMap Call.shown?
  starts : ∃ ready, prepare env r = .ok ready ∧ ∀ j < n, ∃ state before after,
    restarts env ready.schedule j 0 ready.start = .ok (state, before)
      ∧ restarts env ready.schedule (n - j) j state = .ok after ∧ state.psi = start j
  handedOn : ∀ j, j + 1 < n → start (j + 1) = (recorded j (k - 1)).divBy sol.scale
  final : recorded (n - 1) (k - 1) = sol.x
  last : r.options.outputType.number = 1 ∨ r.options.outputType.number = 3 →
    ∀ j < n, ∀ i < k, recorded j i = shown j i
  /-- The sums begin with zeros in the shape in which the restart begins. -/
  averaged : r.options.outputType.number = 2 ∨ r.options.outputType.number = 4
      ∨ r.options.outputType.number = 5 → ∀ j < n, ∀ i < k, ∃ total,
    sumFrom (start j).zerosLike ((List.range (i + 1)).map (shown j)) = .ok total
      ∧ recorded j i = total.divBy ((i : ℝ) + 1)
  /-- If the proximal map never shrinks its argument, the zeros can be left out. -/
  mean : r.options.outputType.number = 2 ∨ r.options.outputType.number = 4
      ∨ r.options.outputType.number = 5 →
    (∀ v t x, r.prox v t = .ok x → Stretches v.shape x.shape) →
    ∀ j < n, ∀ i < k, ∃ total,
      sumFrom (shown j 0) ((List.range i).map fun l => shown j (l + 1)) = .ok total
        ∧ recorded j i = total.divBy ((i : ℝ) + 1)

/-- The restarts of a request of type 1 or 3 return last iterates. -/
theorem type_last {t : OutputType} (h : t.number = 1 ∨ t.number = 3) :
    (if t = .plain then OutputType.averaged else t).averagesPrimal = false := by
  cases t <;> simp_all [OutputType.number, OutputType.averagesPrimal]

/-- The restarts of a request of type 2, 4 or 5 return averages. -/
theorem type_averaged {t : OutputType} (h : t.number = 2 ∨ t.number = 4 ∨ t.number = 5) :
    (if t = .plain then OutputType.averaged else t).averagesPrimal = true := by
  cases t <;> simp_all [OutputType.number, OutputType.averagesPrimal]

variable {env : Environment (Except (Failure ℝ)) ℝ Unit 𝕜}
variable {r : Request (Except (Failure ℝ)) ℝ Unit 𝕜}
variable {ready : Prepared (Except (Failure ℝ)) ℝ Unit 𝕜}

theorem prepare_scale_ne_zero (h : prepare env r = .ok ready) : ready.schedule.scale ≠ 0 := by
  obtain ⟨K, x0, stacked, o, -, -, -, -, -, hready⟩ := prepare_eq_ok.1 h
  obtain ⟨scale, epsilon, delta, length, -, hzero, -, -, -, rfl⟩ := normalise_eq_ok.1 hready
  rw [Control.eq_real, Control.zero_real, decide_eq_false_iff_not] at hzero
  exact hzero

/-- Restarts that returned have passed through every start of their course. -/
theorem restarts_startAt {n j : ℕ} (hj : j < n) {s : Schedule (Except (Failure ℝ)) ℝ Unit 𝕜}
    {state final : RestartState ℝ Unit 𝕜} {trail : Trail ℝ Unit 𝕜} {legs : List (Leg ℝ Unit 𝕜)}
    (h : restarts env s n 0 state = .ok (final, trail)) (hlegs : s.course n state = .ok legs) :
    ∃ mid before after, restarts env s j 0 state = .ok (mid, before)
      ∧ restarts env s (n - j) j mid = .ok after ∧ mid.psi = Schedule.startAt state legs j := by
  obtain ⟨m, rfl⟩ : ∃ m, n = j + m := ⟨n - j, by omega⟩
  obtain ⟨mid, before, after, hbefore, hafter⟩ := restarts_split h
  rw [Nat.zero_add] at hafter
  obtain ⟨first, records, hfirst, -, rfl, -⟩ := restarts_ok hbefore
  cases hfirst.symm.trans (Schedule.course_split hlegs).1
  refine ⟨_, before, (final, after), hbefore, ?_, rfl⟩
  rw [Nat.add_sub_cancel_left]
  exact hafter

/-- **Records and result are consistent.** -/
theorem history_consistent (henv : env.Receptive)
    {sol : Solution (Except (Failure ℝ)) ℝ Unit 𝕜} (h : solve env r = .ok sol) :
    ∃ full log n k start shown recorded,
      History env r sol full log n k start shown recorded := by
  obtain ⟨ready, legs, records, hready, hlegs, hrecords, rfl⟩ := solve_ok h
  obtain ⟨hn, hk⟩ := prepare_counts hready
  have hscale := prepare_scale_ne_zero hready
  obtain ⟨hkIter, hprox, hcallback, ⟨bound, hoptions⟩, htype⟩ := prepare_schedule hready
  rw [← hkIter] at hk
  have herror : ready.schedule.options.error = r.options.error := by rw [hoptions]
  have hstore : ready.schedule.options.store = r.options.store := by rw [hoptions]
  have hrows := Schedule.table_storedAt hlegs
  -- The recorded run is prepared alike and has the same course.
  have hready' := prepare_recorded hready
  have hlegs' : ready.schedule.recorded.course r.nIter.toNat ready.start = .ok legs :=
    (Schedule.course_recorded _ _).trans hlegs
  obtain ⟨records', hrecords', herrors⟩ := Schedule.records_recorded hrecords
  have hdisplayed := Schedule.calls_table hlegs' hk rfl
  refine ⟨solution r.nIter ready.schedule.recorded (Leg.last ready.start legs)
    (ready.schedule.recorded.trail legs records'), ready.schedule.recorded.calls 0 legs,
    r.nIter.toNat, ready.schedule.kIter.toNat, Schedule.startAt ready.start legs,
    ready.schedule.shownAt legs, ready.schedule.storedAt legs, ?_⟩
  exact {
    counts := by omega
    recording := ⟨solve_of_course henv hready' hlegs' hrecords',
      watch_of_course henv hready' hlegs' hrecords', rfl, rfl, herrors⟩
    iterates := (Schedule.records_iterates rfl hrecords').trans hrows.symm
    stored := by
      show (if ready.schedule.options.store then records.map RestartRecord.iterates else []) = _
      rw [← hstore]
      cases hstored : ready.schedule.options.store with
      | false => rfl
      | true => exact (Schedule.records_iterates hstored hrecords).trans hrows.symm
    unmeasured := fun hnone => Schedule.records_unmeasured (herror.trans hnone) hrecords
    measured := by
      intro f hf
      have hmeasured := Schedule.records_errors (herror.trans hf) hrecords
      rw [← hrows] at hmeasured
      refine ⟨hmeasured.length_eq.symm.trans (length_flatten_table _ _ _), ?_⟩
      intro j hj i hi
      exact Forall₂.getElem? hmeasured (getElem?_flatten_table _ hj hi)
    displayed := hdisplayed
    displayedToCaller := by
      intro hsome
      rw [← hcallback] at hsome
      exact ⟨_, watch_of_course henv hready hlegs hrecords,
        (Schedule.calls_table hlegs hk hsome).trans hdisplayed.symm⟩
    starts := ⟨ready, hready, fun j hj =>
      restarts_startAt hj (restarts_of_course henv hlegs hrecords) hlegs⟩
    handedOn := fun j hj => Schedule.startAt_succ hlegs hscale hk (by omega)
    final := by
      have hlast := Schedule.startAt_succ hlegs hscale hk
        (show r.nIter.toNat - 1 < r.nIter.toNat by omega)
      rw [Nat.sub_add_cancel (by omega)] at hlast
      unfold Schedule.startAt at hlast
      rw [List.take_of_length_le (Schedule.length_course hlegs).le] at hlast
      show _ = Tensor.scale ready.schedule.scale (Leg.last ready.start legs).psi
      rw [hlast, divBy_eq_scale, scale_scale, mul_inv_cancel₀ hscale, scale_one]
    last := fun hnumber j hj i hi =>
      Schedule.storedAt_last hlegs htype (type_last hnumber) hj hi
    averaged := fun hnumber j hj i hi =>
      Schedule.storedAt_average hlegs htype (type_averaged hnumber) hj hi
    mean := by
      intro hnumber hstretch j hj i hi
      rw [← hprox] at hstretch
      exact Schedule.storedAt_mean hlegs htype (type_averaged hnumber) hstretch hj hi }

/-- A run of two restarts of three steps. -/
theorem history_consistent_unit :
    quietEnvironment.Receptive ∧ ∃ sol full log start shown recorded,
      solve quietEnvironment unitRequest = .ok sol
        ∧ History quietEnvironment unitRequest sol full log 2 3 start shown recorded := by
  obtain ⟨sol, hsol⟩ := solve_unit
  obtain ⟨full, log, n, k, start, shown, recorded, h⟩ :=
    history_consistent quietEnvironment_receptive hsol
  obtain ⟨hn, hk, -⟩ := h.counts
  have hn' : n = 2 := by
    have : (2 : ℤ) = n := hn
    omega
  have hk' : k = 3 := by
    have : (3 : ℤ) = k := hk
    omega
  subst hn' hk'
  exact ⟨quietEnvironment_receptive, sol, full, log, start, shown, recorded, hsol, h⟩

end Solver

end PrimalDual
