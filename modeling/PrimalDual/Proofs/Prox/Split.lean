/-
  PrimalDual.Proofs.Prox.Split
  ────────────────────────────
  **WHERE THE DUAL MAP SPLITS ITS ARGUMENT.**

  The map of the dual step is told the size `q` of the analysis block, and
  nothing checks it: `q` may be negative, or exceed the number `n` of entries.
  The cut `n - q` then follows the rule for cuts, and the block that is shrunk
  as one vector has

      n                  entries if q < 0
      n - q              entries if 0 ≤ q ≤ n
      max 0 (2 n - q)    entries if n < q

  Whatever `q` is, the result is one table over the positions of the argument
  (`dual_split`): each entry is shrunk with the first block, or projected by
  itself, once and in its place.  This holds in every arithmetic whose kinds
  are `Normed`: in exact arithmetic, and for machine numbers that are real or
  complex.  Tensors of integers have no norm, and are refused.
-/
import PrimalDual.Arithmetic.Machine
import PrimalDual.Proofs.Exact.Block

namespace PrimalDual

open Tensor

variable {R κ α : Type} [Control R] [Kinds κ] [Entry α R κ]

/-! ## §1. Kinds with a norm. -/

/-- A kind whose entries have magnitudes.  These are ordered, stay in their kind beside a control
number, and multiply entries of the kind to entries of the kind. -/
structure Normed (α : Type) {R κ : Type} [Kinds κ] [Entry α R κ] (k : κ) : Prop where
  not_integer : Kinds.isInteger k = false
  floating_real : Kinds.floating (Kinds.real k) = Kinds.real k
  ordered : Kinds.isComplex (Kinds.real k) = false
  absorb_real : Kinds.absorb k (Kinds.real k) = k
  join_real : Kinds.join (Kinds.real k) k = k
  join_self : Kinds.join k k = k
  /-- A product is held in the kind in which it was computed. -/
  cast_mul : ∀ a b : α, Entry.cast k (Entry.mul k a b) = Entry.mul k a b

/-- Every kind of machine numbers but the integers. -/
theorem normed_machine {k : MachineKind} (hk : k ≠ .int) : Normed Number k := by
  cases k with
  | int => exact absurd rfl hk
  | single => exact ⟨rfl, rfl, rfl, rfl, rfl, rfl, fun _ _ => rfl⟩
  | double => exact ⟨rfl, rfl, rfl, rfl, rfl, rfl, fun _ _ => rfl⟩
  | csingle => exact ⟨rfl, rfl, rfl, rfl, rfl, rfl, fun _ _ => rfl⟩
  | cdouble => exact ⟨rfl, rfl, rfl, rfl, rfl, rfl, fun _ _ => rfl⟩

theorem normed_exact (𝕜 : Type) [RCLike 𝕜] : Normed 𝕜 () :=
  ⟨rfl, rfl, rfl, rfl, rfl, rfl, fun _ _ => rfl⟩

/-! ## §2. What the map does to one entry. -/

namespace Prox

/-- The norm of the first `n` terms of a sequence; of a single term, its magnitude. -/
def blockNorm (k : κ) (f : ℕ → α) (n : ℕ) : α :=
  if n = 1 then Entry.magnitude k (f 0) else rootSumSq k f n

/-- A number over a magnitude to which the floor was added. -/
def overFloored (k : κ) (rho : R) (length : α) : α :=
  Entry.mul k (Entry.div k (Entry.one k) (Entry.add k length (Entry.ofControl k (normFloor : R))))
    (Entry.ofControl k rho)

/-- The factor of Euclidean shrinkage by `rho` for a vector of a length. -/
def shrinking (k : κ) (rho : R) (length : α) : α :=
  Entry.atLeast k (Control.zero : R) (Entry.sub k (Entry.one k) (overFloored k rho length))

/-- The factor of the projection on the unit disc for an entry of a magnitude. -/
def clipping (k : κ) (magnitude : α) : α :=
  Entry.atMost k (Control.one : R) (overFloored k (Control.one : R) magnitude)

/-- What the map makes of the entry at position `i`, if the first `s` entries are shrunk. -/
def dualEntry (k : κ) (rho : R) (f : ℕ → α) (s i : ℕ) : α :=
  if i < s then Entry.mul k (shrinking (Kinds.real k) rho (blockNorm k f s)) (f i)
  else Entry.mul k (clipping (Kinds.real k) (Entry.magnitude k (f i))) (f i)

section Exact

variable {𝕜 : Type} [RCLike 𝕜]

/-- In exact arithmetic. -/
theorem blockNorm_exact (f : ℕ → 𝕜) (n : ℕ) :
    blockNorm () f n = (√(∑ i ∈ Finset.range n, ‖f i‖ ^ 2) : ℝ) := by
  unfold blockNorm
  by_cases hn : n = 1
  · rw [if_pos hn, hn, Finset.sum_range_one, Real.sqrt_sq (norm_nonneg _)]
    rfl
  · rw [if_neg hn]
    exact rootSumSq_exact f n

theorem overFloored_exact (ρ r : ℝ) :
    overFloored () ρ (r : 𝕜) = ((ρ / (r + normFloor) : ℝ) : 𝕜) := by
  show (((Control.one : ℝ) : 𝕜) / ((r : 𝕜) + ((normFloor : ℝ) : 𝕜))) * (ρ : 𝕜) = _
  rw [Control.one_real, ← RCLike.ofReal_add, ← RCLike.ofReal_div, ← RCLike.ofReal_mul,
    one_div_mul_eq_div]

theorem shrinking_exact (ρ r : ℝ) :
    shrinking () ρ (r : 𝕜) = ((max 0 (1 - ρ / (r + normFloor)) : ℝ) : 𝕜) := by
  unfold shrinking
  rw [overFloored_exact]
  show ((max (Control.zero : ℝ) (RCLike.re (((Control.one : ℝ) : 𝕜)
    - ((ρ / (r + normFloor) : ℝ) : 𝕜))) : ℝ) : 𝕜) = _
  rw [← RCLike.ofReal_sub, RCLike.ofReal_re, Control.zero_real, Control.one_real]

theorem clipping_exact (r : ℝ) :
    clipping () (r : 𝕜) = ((min 1 (1 / (r + normFloor)) : ℝ) : 𝕜) := by
  unfold clipping
  rw [overFloored_exact]
  show ((min (Control.one : ℝ) (RCLike.re (((Control.one : ℝ) / (r + normFloor) : ℝ) : 𝕜)) : ℝ)
    : 𝕜) = _
  rw [RCLike.ofReal_re, Control.one_real]

end Exact

/-! ## §3. The two blocks. -/

section Blocks

variable {k r : κ} {s : List ℕ} (f g : ℕ → α)

omit [Control R] in
theorem withControl_floating (hr : Kinds.floating r = r) (op : κ → α → α → α) (c : R) :
    (tabulate r s f).withControl op c = tabulate r s fun i => op r (f i) (Entry.ofControl r c) := by
  unfold withControl
  simp only [kind_tabulate, hr]
  exact map_tabulate _ _ _ _ _

omit [Control R] [Entry α R κ] in
theorem bounded_floating (hr : Kinds.floating r = r) (hordered : Kinds.isComplex r = false)
    (op : κ → R → α → α) (bound : R) :
    bounded op bound (tabulate r s f) = .ok (tabulate r s fun i => op r bound (f i)) := by
  unfold bounded
  simp only [kind_tabulate, hr, hordered, Bool.false_eq_true, if_false]
  rw [map_tabulate]

theorem divInto_floored (hr : Kinds.floating r = r) (rho : R) :
    divInto rho ((tabulate r s f).shift normFloor)
      = tabulate r s fun i => overFloored r rho (f i) := by
  unfold divInto reciprocal shift scale
  rw [withControl_floating f hr, withControl_floating _ hr, withControl_floating _ hr]
  rfl

/-- A tensor without axes multiplies every entry of a vector. -/
theorem mul_scalar (c : α) (n : ℕ) :
    ((tabulate r [] fun _ => c).mul (tabulate k [n] f) : Except (Failure R) _)
      = .ok (tabulate (Kinds.absorb k r) [n] fun i => Entry.mul (Kinds.absorb k r) c (f i)) := by
  -- The vector is not stretched, also where it has one entry or none.
  have hsource : ∀ i < n, source [n] [n] i = i := by
    intro i hi
    show (if n = 1 then 0 else i % n) + n * 0 = i
    by_cases hn : n = 1
    · rw [if_pos hn]
      omega
    · rw [if_neg hn, Nat.mod_eq_of_lt hi, mul_zero, add_zero]
  refine congrArg Except.ok (tabulate_congr _ [n] ?_)
  intro i hi
  rw [List.prod_singleton] at hi
  show Entry.mul _ ((tabulate r [] fun _ => c).entryD _ 0)
    ((tabulate k [n] f).entryD _ (source [n] [n] i)) = _
  rw [hsource i hi, entryD_tabulate _ [n] _ _ (by rwa [List.prod_singleton])]
  rfl

/-- Only the entries that are summed count. -/
theorem blockNorm_congr {n : ℕ} (h : ∀ i < n, f i = g i) : blockNorm k f n = blockNorm k g n := by
  have hsum : ∀ m ≤ n, Entry.sumTo (Kinds.real k) (fun i => Entry.normSq k (f i)) m
      = Entry.sumTo (Kinds.real k) (fun i => Entry.normSq k (g i)) m := by
    intro m
    induction m with
    | zero => exact fun _ => rfl
    | succ m ih =>
      intro hm
      show Entry.add _ _ (Entry.normSq k (f m)) = Entry.add _ _ (Entry.normSq k (g m))
      rw [h m (by omega)]
      exact congrArg (Entry.add _ · _) (ih (by omega))
  unfold blockNorm
  by_cases hn : n = 1
  · rw [if_pos hn, if_pos hn, h 0 (by omega)]
  · rw [if_neg hn, if_neg hn]
    exact congrArg (Entry.sqrt _) (hsum n le_rfl)

theorem norm_block (hk : Normed α k) (n : ℕ) :
    ((tabulate k [n] f).norm : Except (Failure R) _)
      = .ok (tabulate (Kinds.real k) [] fun _ => blockNorm k f n) := by
  have hread : ∀ i < n, (tabulate k [n] f).entry i = f i := fun i hi =>
    entry_tabulate _ _ _ (by rwa [List.prod_singleton])
  have hsize : (tabulate k [n] f).size = n := by rw [size_tabulate, List.prod_singleton]
  unfold Tensor.norm
  rw [kind_tabulate, hk.not_integer, hsize, ← blockNorm_congr _ _ hread]
  refine congrArg Except.ok (tabulate_congr _ _ ?_)
  intro _ _
  unfold blockNorm isSingle
  by_cases hn : n = 1
  · simp [hn]
  · simp [hn]

/-- Shrinkage multiplies the entries of a block by one factor. -/
theorem shrink_block (hk : Normed α k) (rho : R) (n : ℕ) :
    shrink rho (tabulate k [n] f) = .ok (tabulate k [n] fun i =>
      Entry.mul k (shrinking (Kinds.real k) rho (blockNorm k f n)) (f i)) := by
  have hfactor : (atLeast Control.zero (subFrom Control.one (divInto rho
      ((tabulate (Kinds.real k) [] fun _ => blockNorm k f n).shift normFloor)))
        : Except (Failure R) _)
      = .ok (tabulate (Kinds.real k) [] fun _ =>
          shrinking (Kinds.real k) rho (blockNorm k f n)) := by
    rw [divInto_floored _ hk.floating_real]
    unfold subFrom atLeast
    rw [withControl_floating _ hk.floating_real]
    exact bounded_floating _ hk.floating_real hk.ordered _ _
  -- The factor is a tensor without axes, and so it multiplies every entry.
  unfold shrink
  rw [norm_block f hk]
  show (atLeast Control.zero (subFrom Control.one (divInto rho
    ((tabulate (Kinds.real k) [] _).shift normFloor))) >>= fun factor =>
      factor.mul (tabulate k [n] f)) = _
  rw [hfactor]
  refine (mul_scalar f _ n).trans ?_
  rw [hk.absorb_real]

/-- Projection multiplies each entry by the factor that belongs to its magnitude. -/
theorem project_block (hk : Normed α k) :
    (project (tabulate k s f) : Except (Failure R) _) = .ok (tabulate k s fun i =>
      Entry.mul k (clipping (Kinds.real k) (Entry.magnitude k (f i))) (f i)) := by
  have hmagnitudes : (tabulate k s f).magnitudes
      = tabulate (Kinds.real k) s fun i => Entry.magnitude k (f i) := map_tabulate _ _ _ _ _
  have hfactor : (atMost Control.one (divInto Control.one
      ((tabulate k s f).magnitudes.shift normFloor)) : Except (Failure R) _)
      = .ok (tabulate (Kinds.real k) s fun i =>
          clipping (Kinds.real k) (Entry.magnitude k (f i))) := by
    rw [hmagnitudes, divInto_floored _ hk.floating_real]
    exact bounded_floating _ hk.floating_real hk.ordered _ _
  unfold project
  rw [hfactor]
  -- A factor is real, so the product keeps the kind of the block.
  have hjoint : jointKind (tabulate (Kinds.real k) s fun i =>
      clipping (Kinds.real k) (Entry.magnitude k (f i))) (tabulate k s f) = k := by
    unfold jointKind hasAxes
    simp only [shape_tabulate, kind_tabulate]
    cases s with
    | nil => exact hk.join_real
    | cons d s => exact hk.join_real
  refine (combine_tabulate _ _ _).trans ?_
  rw [hjoint]

end Blocks

/-! ## §4. The whole map. -/

/-- How many of `n` entries are shrunk. -/
def leadCount (n : ℕ) (q : ℤ) : ℕ := cutPoint n (n - q)

/-- The map with both blocks computed and joined, also where there is no analysis block. -/
def joined (y : Tensor κ α) (rho : R) (q : ℤ) : Except (Failure R) (Tensor κ α) := do
  let cut : ℤ := y.size - q
  let lead ← shrink rho (← y.flatten.leading cut)
  let tail ← project (← y.flatten.trailing cut)
  (← lead.append tail).reshape (y.shape.map Int.ofNat)

/-- With an analysis block of any other size the map is computed so. -/
theorem dual_eq_joined (y : Tensor κ α) (rho : R) {q : ℤ} (hq : q ≠ 0) :
    dual y rho (.whole q) = joined y rho q := by
  cases q with
  | ofNat m =>
    cases m with
    | zero => exact absurd rfl hq
    | succ m => rfl
  | negSucc m => rfl

theorem leadCount_le (n : ℕ) (q : ℤ) : leadCount n q ≤ n := cutPoint_le n _

theorem leadCount_of_neg {n : ℕ} {q : ℤ} (hq : q < 0) : leadCount n q = n := by
  unfold leadCount cutPoint
  rw [if_neg (by omega)]
  omega

theorem leadCount_of_le {n : ℕ} {q : ℤ} (hq : 0 ≤ q) (hn : q ≤ n) :
    (leadCount n q : ℤ) = n - q := by
  unfold leadCount cutPoint
  rw [if_neg (by omega)]
  omega

/-- An oversized block counts the cut from the end once more. -/
theorem leadCount_of_lt {n : ℕ} {q : ℤ} (hq : n < q) :
    (leadCount n q : ℤ) = max 0 (2 * n - q) := by
  unfold leadCount cutPoint
  rw [if_pos (by omega)]
  omega

/-- How many of `n` entries are projected one by one. -/
def tailCount (n : ℕ) (q : ℤ) : ℕ := n - leadCount n q

theorem tailCount_le (n : ℕ) (q : ℤ) : tailCount n q ≤ n := Nat.sub_le _ _

theorem tailCount_of_le {n q : ℕ} (hq : q ≤ n) : tailCount n q = q := by
  have hlead := leadCount_of_le (n := n) (q := q) (by omega) (by omega)
  unfold tailCount
  omega

/-- A block of that many entries is cut off in the same place. -/
theorem leadCount_tailCount (n : ℕ) (q : ℤ) : leadCount n (tailCount n q) = leadCount n q := by
  have htail := tailCount_le n q
  have hlead := leadCount_of_le (n := n) (q := tailCount n q) (by omega) (by omega)
  have hle := leadCount_le n q
  unfold tailCount at hlead
  unfold tailCount
  omega

section Whole

variable {k : κ} {t : List ℕ} (f : ℕ → α)

/-- The two blocks, joined, are one table over the positions of the argument. -/
theorem joined_split (hk : Normed α k) (rho : R) (q : ℤ) :
    joined (tabulate k t f) rho q
      = .ok (tabulate k t (dualEntry k rho f (leadCount t.prod q))) := by
  have hcut : cutPoint t.prod (t.prod - q) = leadCount t.prod q := rfl
  have hle := leadCount_le t.prod q
  unfold joined
  rw [flatten_tabulate, size_tabulate]
  simp only [leading_cutPoint, trailing_cutPoint, hcut, bind, Except.bind, shrink_block _ hk,
    project_block _ hk, append_tabulate_cast, hk.join_self, shape_tabulate]
  apply (reshape_tabulate _ ?_).trans
  · refine congrArg Except.ok (tabulate_congr _ _ ?_)
    intro i _
    unfold dualEntry
    by_cases h : i < leadCount t.prod q
    · rw [if_pos h, if_pos h, hk.cast_mul]
    · rw [if_neg h, if_neg h, hk.cast_mul, Nat.add_sub_cancel' (by omega)]
  · rw [List.prod_singleton]
    exact Nat.add_sub_cancel' hle

/-- Where there is no analysis block, the shortcut leaves out a block without entries. -/
theorem dual_split (hk : Normed α k) (rho : R) (q : ℤ) :
    dual (tabulate k t f) rho (.whole q)
      = .ok (tabulate k t (dualEntry k rho f (leadCount t.prod q))) := by
  by_cases hq : q = 0
  · subst hq
    have hcount : leadCount t.prod 0 = t.prod := by
      have := leadCount_of_le (n := t.prod) le_rfl (by omega)
      omega
    have hcut : cutPoint t.prod (t.prod - 0) = t.prod := hcount
    unfold dual cutBefore
    simp only [flatten_tabulate, size_tabulate, List.prod_singleton, bind, Except.bind,
      leading_cutPoint, hcut, shrink_block _ hk, shape_tabulate]
    apply (reshape_tabulate _ List.prod_singleton).trans
    refine congrArg Except.ok (tabulate_congr _ _ ?_)
    intro i hi
    unfold dualEntry
    rw [hcount, if_pos hi]
  · rw [dual_eq_joined _ _ hq]
    exact joined_split f hk rho q

/-- Whatever is said to be the size of the analysis block, the map is that of a block which fits. -/
theorem dual_tailCount {y : Tensor κ α} (hk : Normed α y.kind) (rho : R) (q : ℤ) :
    dual y rho (.whole (tailCount y.size q)) = dual y rho (.whole q) := by
  have hsplit := fun q : ℤ => dual_split (t := y.shape) y.entry hk rho q
  simp only [tabulate_entry, ← size_eq] at hsplit
  rw [hsplit, hsplit, leadCount_tailCount]

end Whole

/-- Integers have no norm, so there is no block of them to be shrunk. -/
theorem dual_integer {y : Tensor κ α} (hk : Kinds.isInteger y.kind = true) (rho : R) (q : ℤ) :
    dual y rho (.whole q) = .error .integerNorm := by
  have hnorm : ∀ m, shrink rho (tabulate y.kind [m] y.entry) = .error .integerNorm := by
    intro m
    unfold shrink Tensor.norm
    rw [kind_tabulate, hk]
    rfl
  rw [← tabulate_entry y]
  unfold dual cutBefore
  simp only [flatten_tabulate, bind, Except.bind, leading_cutPoint, hnorm]

/-- **Every entry is processed once and in its place, whatever the size of the analysis
block.**  The shortcut for a missing block leaves the result as it is. -/
theorem dual_blocks {y : Tensor κ α} (hk : Normed α y.kind) (rho : R) (q : ℤ) :
    ∃ s ≤ y.size,
      (0 ≤ q → q ≤ y.size → (s : ℤ) = y.size - q) ∧ (q < 0 → s = y.size)
      ∧ (y.size < q → (s : ℤ) = max 0 (2 * y.size - q))
      ∧ ∃ z, dual y rho (.whole q) = .ok z ∧ joined y rho q = .ok z
        ∧ z.kind = y.kind ∧ z.shape = y.shape
        ∧ (∀ i < s, z.entry i = Entry.mul y.kind
            (shrinking (Kinds.real y.kind) rho (blockNorm y.kind y.entry s)) (y.entry i))
        ∧ ∀ i, s ≤ i → i < y.size → z.entry i = Entry.mul y.kind
            (clipping (Kinds.real y.kind) (Entry.magnitude y.kind (y.entry i))) (y.entry i) := by
  have hdual := dual_split (t := y.shape) y.entry hk rho q
  have hjoined := joined_split (t := y.shape) y.entry hk rho q
  rw [tabulate_entry, ← size_eq] at hdual hjoined
  have hle := leadCount_le y.size q
  refine ⟨leadCount y.size q, hle, leadCount_of_le, leadCount_of_neg, leadCount_of_lt, _, hdual,
    hjoined, rfl, rfl, ?_, ?_⟩
  · intro i hi
    rw [entry_tabulate _ _ _ (by rw [← size_eq]; omega)]
    exact if_pos hi
  · intro i hi hsize
    rw [entry_tabulate _ _ _ (by rwa [← size_eq])]
    exact if_neg (by omega)

/-- Three entries before a block of four: the cut falls one position before the end. -/
theorem dual_blocks_oversized :
    Normed ℝ () ∧ ∃ z : Tensor Unit ℝ,
      dual (tabulate () [3] fun i => (i : ℝ) + 3) (2 : ℝ) (.whole 4) = .ok z ∧ z.shape = [3]
      ∧ z.entry 0 = max 0 (1 - 2 / (5 + normFloor)) * 3
      ∧ z.entry 1 = max 0 (1 - 2 / (5 + normFloor)) * 4
      ∧ z.entry 2 = min 1 (1 / (5 + normFloor)) * 5 := by
  refine ⟨normed_exact ℝ, ?_⟩
  obtain ⟨s, -, -, -, hs, z, hz, -, -, hshape, hlead, htail⟩ :=
    dual_blocks (y := tabulate () [3] fun i => (i : ℝ) + 3) (normed_exact ℝ) (2 : ℝ) 4
  rw [size_tabulate] at hs htail
  have htwo : s = 2 := by
    have := hs (by decide)
    simp at this
    omega
  subst htwo
  have hentry : ∀ i < 3, (tabulate () [3] fun i => (i : ℝ) + 3 : Tensor Unit ℝ).entry i = i + 3 :=
    fun i hi => entry_tabulate _ _ _ hi
  -- The entries before the cut are 3 and 4, of norm 5; the one behind it is 5.
  have hroot : √(∑ i ∈ Finset.range 2,
      ‖(tabulate () [3] fun i => (i : ℝ) + 3 : Tensor Unit ℝ).entry i‖ ^ 2) = 5 := by
    rw [Finset.sum_range_succ, Finset.sum_range_one, hentry 0 (by decide), hentry 1 (by decide)]
    rw [Real.sqrt_eq_iff_mul_self_eq (by positivity) (by norm_num)]
    norm_num
  have hshrunk : shrinking () (2 : ℝ)
      (blockNorm () (tabulate () [3] fun i => (i : ℝ) + 3 : Tensor Unit ℝ).entry 2)
      = max 0 (1 - 2 / (5 + normFloor)) := by
    rw [blockNorm_exact, hroot]
    exact shrinking_exact 2 5
  have hclipped : clipping () ((5 : ℝ) : ℝ) = min 1 (1 / (5 + normFloor)) := clipping_exact 5
  refine ⟨z, hz, hshape, ?_, ?_, ?_⟩
  · rw [hlead 0 (by decide), hentry 0 (by decide)]
    show shrinking () _ (blockNorm () _ 2) * _ = _
    rw [hshrunk]
    norm_num
  · rw [hlead 1 (by decide), hentry 1 (by decide)]
    show shrinking () _ (blockNorm () _ 2) * _ = _
    rw [hshrunk]
    norm_num
  · rw [htail 2 le_rfl (by decide), hentry 2 (by decide)]
    show clipping () (‖((2 : ℕ) : ℝ) + 3‖ : ℝ) * _ = _
    have hfive : ((2 : ℕ) : ℝ) + 3 = 5 := by norm_num
    rw [hfive, Real.norm_of_nonneg (by norm_num), hclipped]

end Prox

end PrimalDual
