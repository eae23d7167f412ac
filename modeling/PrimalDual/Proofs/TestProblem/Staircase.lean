/-
  PrimalDual.Proofs.TestProblem.Staircase
  ───────────────────────────────────────
  **THE JUMPS OF A PIECEWISE-CONSTANT SIGNAL.**

  The generator draws positions in any order, sorts them, and raises the
  signal by one value from each position on.  The raised parts overlap, and
  add up to

      x i  =  the sum of the values `v r` with  p r ≤ i,      p 0 < p 1 < …

  so two neighbours differ where a position is, by its value, and nowhere
  else (`height_succ`).  The circular difference compares one more pair: the
  last entry, which is the sum of all values, with the first one, which is
  zero.
-/
import PrimalDual.Proofs.Operator.AlongAxis
import PrimalDual.Proofs.TestProblem.Draws

namespace PrimalDual

namespace TestProblem

open Tensor

/-! ## §1. Sorted positions. -/

/-- Numbers that differ are sorted into a strictly increasing sequence. -/
theorem exists_sorted {k : ℕ} {f : Fin k → ℕ} (hf : Function.Injective f) :
    ∃ p : Fin k → ℕ, (List.ofFn f).mergeSort (· ≤ ·) = List.ofFn p ∧ StrictMono p
      ∧ Set.range p = Set.range f := by
  have hperm : ((List.ofFn f).mergeSort (· ≤ ·)).Perm (List.ofFn f) := List.mergeSort_perm _ _
  have hlength : ((List.ofFn f).mergeSort (· ≤ ·)).length = k := by
    rw [hperm.length_eq, List.length_ofFn]
  have hlist : ∀ l : List ℕ, l.length = k → ∃ p : Fin k → ℕ, l = List.ofFn p := by
    rintro l rfl
    exact ⟨l.get, (List.ofFn_get l).symm⟩
  obtain ⟨p, hp⟩ := hlist _ hlength
  -- Sorted without repetition is strictly increasing.
  have hsorted : (List.ofFn p).Pairwise (· ≤ ·) := by
    rw [← hp]
    exact List.pairwise_mergeSort' (· ≤ ·) _
  have hnodup : (List.ofFn p).Nodup := by
    rw [← hp, hperm.nodup_iff, List.nodup_ofFn]
    exact hf
  refine ⟨p, hp, ?_, ?_⟩
  · intro i j hij
    apply lt_of_le_of_ne (List.pairwise_ofFn.1 hsorted hij)
    intro h
    exact hij.ne (List.nodup_ofFn.1 hnodup h)
  · ext v
    rw [← List.mem_ofFn', ← List.mem_ofFn', ← hp]
    exact hperm.mem_iff

/-! ## §2. Heights. -/

section Heights

variable {k : ℕ} (p : Fin k → ℕ) (v : Fin k → ℝ)

/-- The sum of the values up to a position. -/
noncomputable def height (i : ℕ) : ℝ := ∑ r, if p r ≤ i then v r else 0

/-- Raising the signal value by value makes the sum. -/
theorem level_ofFn (i : ℕ) :
    level ((List.ofFn p).zip (List.ofFn v)) i = height p v i := by
  have hfold : ∀ (l : List (ℕ × ℝ)) (a : ℝ),
      l.foldl (fun s j => if j.1 ≤ i then s + j.2 else s) a
        = a + (l.map fun j => if j.1 ≤ i then j.2 else 0).sum := by
    intro l
    induction l with
    | nil =>
      intro a
      simp
    | cons j l ih =>
      intro a
      rw [List.foldl_cons, ih, List.map_cons, List.sum_cons, ← add_assoc]
      by_cases h : j.1 ≤ i
      · rw [if_pos h, if_pos h]
      · rw [if_neg h, if_neg h, add_zero]
  unfold level height
  rw [hfold, zip_ofFn, List.map_ofFn, List.sum_ofFn, Control.zero_real, zero_add]
  rfl

variable {p v}

/-- Before the first position the signal is zero. -/
theorem height_first (hp : ∀ r, 1 ≤ p r) : height p v 0 = 0 := by
  apply Finset.sum_eq_zero
  intro r _
  refine if_neg ?_
  have := hp r
  omega

/-- From the last position on it is the sum of all values. -/
theorem height_last {i : ℕ} (hp : ∀ r, p r ≤ i) : height p v i = ∑ r, v r :=
  Finset.sum_congr rfl fun r _ => if_pos (hp r)

/-- One place on, the signal has risen by the value of the position there. -/
theorem height_succ (i : ℕ) :
    height p v (i + 1) - height p v i = ∑ r, if p r = i + 1 then v r else 0 := by
  unfold height
  rw [← Finset.sum_sub_distrib]
  apply Finset.sum_congr rfl
  intro r _
  by_cases h : p r ≤ i
  · rw [if_pos (by omega), if_pos h, if_neg (by omega), sub_self]
  · rw [if_neg h, sub_zero]
    by_cases h' : p r = i + 1
    · rw [if_pos h', if_pos (by omega)]
    · rw [if_neg h', if_neg (by omega)]

theorem height_jump (hp : Function.Injective p) (r : Fin k) {i : ℕ} (hr : p r = i + 1) :
    height p v (i + 1) - height p v i = v r := by
  rw [height_succ]
  refine (Finset.sum_eq_single r (fun r' _ hne => if_neg fun h => ?_) ?_).trans (if_pos hr)
  · exact hne (hp (h.trans hr.symm))
  · exact fun h => absurd (Finset.mem_univ r) h

theorem height_flat {i : ℕ} (hi : ∀ r, p r ≠ i + 1) :
    height p v (i + 1) - height p v i = 0 := by
  rw [height_succ]
  exact Finset.sum_eq_zero fun r _ => if_neg (hi r)

end Heights

/-! ## §3. The circular difference. -/

/-- The forward difference of a vector goes around a circle. -/
theorem difference_vector (n : ℕ) (f : ℕ → ℝ) :
    (Operator.difference (-1) : Operator (Except (Failure ℝ)) ℝ Unit ℝ).forward
        (tabulate () [n] f)
      = .ok (tabulate () [n] fun i => f ((i + 1) % n) - f i) := by
  have haxis : axisOf (tabulate () [n] f : Tensor Unit ℝ).axes (-1) = some 0 := rfl
  obtain ⟨w, hw, hshape, hentry⟩ := rotate_of_axis haxis (-1)
  have hmoved : ∀ i < n, moved n 1 (-1) i = (i + 1) % n := by
    intro i hi
    have hnext : (((i / 1 % n : ℕ) : ℤ) - -1) % n = ((i + 1) % n : ℕ) := by
      rw [Nat.div_one, Nat.mod_eq_of_lt hi, sub_neg_eq_add]
      push_cast
      rfl
    unfold moved across
    rw [hnext, Int.toNat_natCast, mul_one, mul_one, Nat.div_eq_of_lt hi, zero_mul, zero_add,
      Nat.mod_one, add_zero]
  -- The rotated vector is the table of the next entries.
  have htable : w = tabulate () [n] fun i => f ((i + 1) % n) := by
    refine ext_entry rfl hshape ?_
    intro i hi
    rw [size_eq, hshape, shape_tabulate, List.prod_singleton] at hi
    have hlt : (i + 1) % n < n := Nat.mod_lt _ (by omega)
    rw [hentry i (by rwa [size_tabulate, List.prod_singleton])]
    show (tabulate () [n] f).entry (moved n 1 (-1) i) = _
    rw [hmoved i hi, entry_tabulate _ _ _ (by rwa [List.prod_singleton]),
      entry_tabulate _ _ _ (by rwa [List.prod_singleton])]
  subst htable
  apply bind_returns hw
  refine (combine_tabulate _ _ _).trans (congrArg Except.ok (tabulate_congr _ _ ?_))
  intro i _
  rw [Entry.addMultiple_exact]
  simp [sub_eq_add_neg]

section Changes

variable {m k : ℕ} {p : Fin k → ℕ} {v : Fin k → ℝ}

/-- Inside the signal there are as many changes as positions, and at its end there is one more
unless the values add up to zero. -/
theorem card_changes (hp : Function.Injective p) (hpos : ∀ r, 1 ≤ p r ∧ p r ≤ m)
    (hv : ∀ r, v r ≠ 0) :
    ((Finset.range (m + 1)).filter fun i =>
        height p v ((i + 1) % (m + 1)) - height p v i ≠ 0).card
      = if ∑ r, v r = 0 then k else k + 1 := by
  have hinside : (Finset.range m).filter (fun i =>
      height p v ((i + 1) % (m + 1)) - height p v i ≠ 0)
      = Finset.univ.image fun r => p r - 1 := by
    ext i
    rw [Finset.mem_filter, Finset.mem_range, Finset.mem_image]
    constructor
    · rintro ⟨hi, hne⟩
      rw [Nat.mod_eq_of_lt (by omega)] at hne
      by_contra hnone
      refine hne (height_flat fun r hr => hnone ⟨r, Finset.mem_univ r, ?_⟩)
      omega
    · rintro ⟨r, -, rfl⟩
      obtain ⟨hlow, hhigh⟩ := hpos r
      refine ⟨by omega, ?_⟩
      rw [Nat.mod_eq_of_lt (by omega), height_jump hp r (by omega)]
      exact hv r
  have hcard : (Finset.univ.image fun r => p r - 1).card = k := by
    rw [Finset.card_image_of_injective, Finset.card_univ, Fintype.card_fin]
    intro r r' hrr'
    have h := hpos r
    have h' := hpos r'
    exact hp (by simp only at hrr'; omega)
  -- After the last entry comes the first one again, which is zero.
  have hlast : height p v ((m + 1) % (m + 1)) - height p v m = -∑ r, v r := by
    rw [Nat.mod_self, height_first fun r => (hpos r).1, height_last fun r => (hpos r).2, zero_sub]
  rw [Finset.range_add_one, Finset.filter_insert, hlast]
  by_cases hsum : ∑ r, v r = 0
  · rw [if_neg (by simp [hsum]), if_pos hsum, hinside, hcard]
  · rw [if_pos (by simpa using hsum), if_neg hsum, Finset.card_insert_of_notMem, hinside, hcard]
    simp

end Changes

/-! ## §4. The generated signal. -/

section Generated

variable {σ : Type} {n s : ℕ} {src : Source (World σ ℝ) ℝ} {g g' : σ}

/-- The generator returns the signal that rises by the drawn values, in the order of the draws,
at the sorted positions. -/
theorem piecewise_eq (hn : 1 ≤ n) (d : SignedDraws (n - 1) s (1 / 2) (3 / 2))
    (hd : d.Delivered src g g') :
    ∃ p : Fin s → ℕ, StrictMono p ∧ (∀ i, (∃ r, p r = i) ↔ ∃ r, (d.positions r : ℕ) + 1 = i)
      ∧ (piecewise src n s : World σ ℝ (Tensor Unit ℝ)).play g
        = (.ok (tabulate () [n] (height p d.value)), g') := by
  obtain ⟨g₁, g₂, hpositions, hsigns, hmagnitudes⟩ := hd
  have hcount : ((n : ℤ) - 1).toNat = n - 1 := by omega
  have hlow : (Control.ofDecimal 5 (-1) : ℝ) = 1 / 2 := by
    show ((5 : ℕ) : ℝ) * 10 ^ (-1 : ℤ) = 1 / 2
    norm_num
  have hhigh : (Control.ofDecimal 15 (-1) : ℝ) = 3 / 2 := by
    show ((15 : ℕ) : ℝ) * 10 ^ (-1 : ℤ) = 3 / 2
    norm_num
  obtain ⟨p, hsorted, hmono, hrange⟩ := exists_sorted (f := fun r => (d.positions r : ℕ) + 1)
    fun r r' h => d.positions.injective (Fin.ext (Nat.succ.inj h))
  refine ⟨p, hmono, fun i => Set.ext_iff.1 hrange i, ?_⟩
  have hshifted : d.positionList.map (· + 1) = List.ofFn fun r => (d.positions r : ℕ) + 1 :=
    List.map_ofFn
  -- The sorted positions are paired with the values in the order of the draws.
  have hstaircase : (staircase n (List.ofFn p) (List.ofFn d.value) : Tensor Unit ℝ)
      = tabulate () [n] (height p d.value) := by
    refine (ofControls_range n _).trans (tabulate_congr _ _ ?_)
    intro i _
    exact level_ofFn p d.value i
  unfold piecewise
  rw [hcount, hlow, hhigh, World.play_bind_ok hpositions, World.play_bind_ok hsigns,
    World.play_bind_ok hmagnitudes, if_neg (by omega)]
  show (Except.ok _, g') = _
  rw [Int.toNat_natCast, hshifted, hsorted, d.signed_eq, hstaircase]

/-- **A piecewise-constant signal jumps where and by what was drawn, and nowhere else.**  Its
circular difference counts the jumps, and the one back to zero unless the jumps cancel. -/
theorem piecewise_jumps (hn : 1 ≤ n) (d : SignedDraws (n - 1) s (1 / 2) (3 / 2))
    (hd : d.Delivered src g g') :
    ∃ (x : Tensor Unit ℝ) (p : Fin s → ℕ), (piecewise src n s).play g = (.ok x, g')
      ∧ x.shape = [n] ∧ StrictMono p
      ∧ (∀ i, (∃ r, p r = i) ↔ ∃ r, (d.positions r : ℕ) + 1 = i)
      ∧ (∀ i < n, x.entry i = ∑ r, if p r ≤ i then d.value r else 0)
      ∧ x.entry 0 = 0
      ∧ (∀ r, 1 ≤ p r ∧ p r < n ∧ x.entry (p r) - x.entry (p r - 1) = d.value r
          ∧ 1 / 2 ≤ |x.entry (p r) - x.entry (p r - 1)|)
      ∧ (∀ i, 1 ≤ i → i < n → (∀ r, p r ≠ i) → x.entry i - x.entry (i - 1) = 0)
      ∧ ∃ z, (Operator.difference (-1) : Operator (Except (Failure ℝ)) ℝ Unit ℝ).forward x = .ok z
          ∧ z.shape = [n] ∧ ((Finset.range n).filter fun i => z.entry i ≠ 0).card
            = if ∑ r, d.value r = 0 then s else s + 1 := by
  obtain ⟨p, hmono, hpositions, hplay⟩ := piecewise_eq hn d hd
  have hpos : ∀ r, 1 ≤ p r ∧ p r ≤ n - 1 := by
    intro r
    obtain ⟨r', hr'⟩ := (hpositions (p r)).1 ⟨r, rfl⟩
    have := (d.positions r').isLt
    omega
  have hentry : ∀ i < n, (tabulate () [n] (height p d.value) : Tensor Unit ℝ).entry i
      = height p d.value i := fun i hi => entry_tabulate _ _ _ (by rwa [List.prod_singleton])
  have hjump : ∀ r, height p d.value (p r) - height p d.value (p r - 1) = d.value r := by
    intro r
    obtain ⟨i, hi⟩ : ∃ i, p r = i + 1 := ⟨p r - 1, by have := hpos r; omega⟩
    rw [hi, Nat.add_sub_cancel]
    exact height_jump hmono.injective r hi
  -- What is left: the first entry, the jumps, the flat places and the count of the changes.
  refine ⟨_, p, hplay, rfl, hmono, hpositions, hentry, ?_, ?_, ?_, _, difference_vector n _, rfl,
    ?_⟩
  · rw [hentry 0 (by omega)]
    exact height_first fun r => (hpos r).1
  · intro r
    have h := hpos r
    rw [hentry _ (by omega), hentry _ (by omega), hjump]
    exact ⟨h.1, by omega, rfl, d.le_abs_value (by norm_num) r⟩
  · intro i hi hin hflat
    obtain ⟨j, rfl⟩ : ∃ j, i = j + 1 := ⟨i - 1, by omega⟩
    rw [hentry _ hin, hentry _ (by omega), Nat.add_sub_cancel]
    exact height_flat hflat
  · obtain ⟨m, rfl⟩ : ∃ m, n = m + 1 := ⟨n - 1, by omega⟩
    rw [← card_changes hmono.injective hpos fun r => d.value_ne_zero (by norm_num) r]
    refine congrArg Finset.card (Finset.filter_congr ?_)
    intro i hi
    rw [entry_tabulate _ _ _ (by rw [List.prod_singleton]; exact Finset.mem_range.1 hi)]
    rfl

end Generated

/-- Two steps, up by one and down by one; the later position was drawn first. -/
noncomputable def twoJumps : SignedDraws (4 - 1) 2 (1 / 2) (3 / 2) where
  positions := ⟨![2, 0], by decide⟩
  signs := Fin.rev
  magnitudes _ := ⟨1, by norm_num, by norm_num⟩

/-- The steps cancel, so the circular difference has no third entry. -/
theorem piecewise_jumps_cancelling :
    1 ≤ 4 ∧ twoJumps.Delivered (twoJumps.source []) () ()
      ∧ ∃ x z : Tensor Unit ℝ, (piecewise (twoJumps.source []) 4 2).play () = (.ok x, ())
        ∧ x.entry 0 = 0
        ∧ (Operator.difference (-1) : Operator (Except (Failure ℝ)) ℝ Unit ℝ).forward x = .ok z
        ∧ ((Finset.range 4).filter fun i => z.entry i ≠ 0).card = 2 := by
  have hdelivered := twoJumps.delivered_source []
  obtain ⟨x, p, hplay, -, -, -, -, hfirst, -, -, z, hz, -, hcard⟩ :=
    piecewise_jumps (n := 4) (by decide) twoJumps hdelivered
  have hsum : ∑ r, twoJumps.value r = 0 := by
    rw [Fin.sum_univ_two]
    simp [SignedDraws.value, twoJumps, sign]
  rw [if_pos hsum] at hcard
  exact ⟨by decide, hdelivered, x, z, hplay, hfirst, hz, hcard⟩

end TestProblem

end PrimalDual
