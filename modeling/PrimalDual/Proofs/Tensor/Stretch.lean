/-
  PrimalDual.Proofs.Tensor.Stretch
  ────────────────────────────────
  **STRETCHED SHAPES AND THE POSITIONS THAT THEY READ.**

  A shape stretches to another if, aligned at the last axis, each of its
  axes has the length of its counterpart or length 1.  The common shape of
  two shapes is one to which both stretch (`stretches_of_stretch`).

  Where a stretched tensor is read in row-major order, the position that is
  read keeps its distance from the end or comes closer to it
  (`sourceReversed_tail`).  So the last entries of a stretched tensor are
  among the last entries of the tensor itself.
-/
import PrimalDual.Proofs.Exact.Arithmetic

namespace PrimalDual

namespace Tensor

/-! ## §1. Stretching. -/

/-- The first shape stretches to the second; both are listed from the last axis. -/
inductive StretchesTo : List ℕ → List ℕ → Prop where
  | nil (t : List ℕ) : StretchesTo [] t
  | same (a : ℕ) {s t : List ℕ} : StretchesTo s t → StretchesTo (a :: s) (a :: t)
  | one (b : ℕ) {s t : List ℕ} : StretchesTo s t → StretchesTo (1 :: s) (b :: t)

theorem StretchesTo.refl (s : List ℕ) : StretchesTo s s := by
  induction s with
  | nil => exact .nil []
  | cons a s ih => exact .same a ih

/-- What stretches to a shape stretches to where that one stretches. -/
theorem StretchesTo.trans {s t u : List ℕ} (hst : StretchesTo s t) (htu : StretchesTo t u) :
    StretchesTo s u := by
  induction hst generalizing u with
  | nil t => exact .nil u
  | same a _ ih =>
    cases htu with
    | same _ htu => exact .same a (ih htu)
    | one b htu => exact .one b (ih htu)
  | one b _ ih =>
    cases htu with
    | same _ htu => exact .one b (ih htu)
    | one c htu => exact .one c (ih htu)

/-- Both shapes stretch to their common shape. -/
theorem stretches_of_stretchReversed {s t u : List ℕ} (h : stretchReversed s t = some u) :
    StretchesTo s u ∧ StretchesTo t u := by
  induction s generalizing t u with
  | nil =>
    rw [stretchReversed, Option.some.injEq] at h
    subst h
    exact ⟨.nil t, .refl t⟩
  | cons a s ih =>
    cases t with
    | nil =>
      rw [stretchReversed, Option.some.injEq] at h
      · subst h
        exact ⟨.refl _, .nil _⟩
      · simp
    | cons b t =>
      -- The last axes are of one length, or one of them has length 1.
      rw [stretchReversed] at h
      split_ifs at h with hab ha hb
      · obtain ⟨v, hv, rfl⟩ := Option.map_eq_some_iff.1 h
        subst hab
        exact ⟨.same a (ih hv).1, .same a (ih hv).2⟩
      · obtain ⟨v, hv, rfl⟩ := Option.map_eq_some_iff.1 h
        subst ha
        exact ⟨.one b (ih hv).1, .same b (ih hv).2⟩
      · obtain ⟨v, hv, rfl⟩ := Option.map_eq_some_iff.1 h
        subst hb
        exact ⟨.same a (ih hv).1, .one a (ih hv).2⟩

/-- A shape that stretches to another has it as their common shape. -/
theorem stretchReversed_of_stretches {s t : List ℕ} (h : StretchesTo s t) :
    stretchReversed s t = some t := by
  induction h with
  | nil t => rw [stretchReversed]
  | same a _ ih => rw [stretchReversed, if_pos rfl, ih, Option.map_some]
  | @one b s t _ ih =>
    rw [stretchReversed, ih]
    by_cases hb : 1 = b
    · rw [if_pos hb, hb, Option.map_some]
    · rw [if_neg hb, if_pos rfl, Option.map_some]

theorem stretchReversed_comm (s t : List ℕ) : stretchReversed s t = stretchReversed t s := by
  induction s generalizing t with
  | nil => cases t <;> simp [stretchReversed]
  | cons a s ih =>
    cases t with
    | nil => simp [stretchReversed]
    | cons b t =>
      rw [stretchReversed, stretchReversed, ih t]
      by_cases hab : a = b
      · rw [if_pos hab, if_pos hab.symm, hab]
      · rw [if_neg hab, if_neg (Ne.symm hab)]
        by_cases ha : a = 1
        · rw [if_pos ha, if_neg fun hb => hab (ha.trans hb.symm), if_pos ha]
        · rw [if_neg ha, if_neg ha]

/-- Shapes that stretch to each other are the same. -/
theorem StretchesTo.antisymm {s t : List ℕ} (hst : StretchesTo s t) (hts : StretchesTo t s) :
    s = t := by
  induction hst with
  | nil t => cases hts; rfl
  | same a _ ih =>
    cases hts with
    | same _ hts => rw [ih hts]
    | one _ hts => rw [ih hts]
  | one b _ ih =>
    cases hts with
    | same _ hts => rw [ih hts]
    | one _ hts => rw [ih hts]

/-- Shapes that stretch to one shape have a common shape, and it is the least such shape. -/
theorem stretchReversed_of_le {s t w : List ℕ} (hs : StretchesTo s w) (ht : StretchesTo t w) :
    ∃ u, stretchReversed s t = some u ∧ StretchesTo u w := by
  induction hs generalizing t with
  | nil w =>
    rw [stretchReversed]
    exact ⟨t, rfl, ht⟩
  | @same a s w hs ih =>
    cases ht with
    | nil => exact ⟨a :: s, by rw [stretchReversed]; simp, .same a hs⟩
    | same _ ht =>
      obtain ⟨u, hu, huw⟩ := ih ht
      exact ⟨a :: u, by rw [stretchReversed, if_pos rfl, hu, Option.map_some], .same a huw⟩
    | one _ ht =>
      obtain ⟨u, hu, huw⟩ := ih ht
      refine ⟨a :: u, ?_, .same a huw⟩
      rw [stretchReversed, hu]
      -- An axis of length 1 may be matched in two ways, with one result.
      by_cases ha : a = 1
      · rw [if_pos ha, Option.map_some]
      · rw [if_neg ha, if_neg ha, if_pos rfl, Option.map_some]
  | @one b s w hs ih =>
    cases ht with
    | nil => exact ⟨1 :: s, by rw [stretchReversed]; simp, .one b hs⟩
    | same _ ht =>
      obtain ⟨u, hu, huw⟩ := ih ht
      refine ⟨b :: u, ?_, .same b huw⟩
      rw [stretchReversed, hu]
      by_cases hb : 1 = b
      · rw [if_pos hb, Option.map_some, hb]
      · rw [if_neg hb, if_pos rfl, Option.map_some]
    | one _ ht =>
      obtain ⟨u, hu, huw⟩ := ih ht
      exact ⟨1 :: u, by rw [stretchReversed, if_pos rfl, hu, Option.map_some], .one b huw⟩

theorem stretchesTo_append (s t : List ℕ) : StretchesTo s (s ++ t) := by
  induction s with
  | nil => exact .nil t
  | cons a s ih => exact .same a ih

/-- The size of a shape divides that of what it stretches to. -/
theorem StretchesTo.prod_dvd {s t : List ℕ} (h : StretchesTo s t) : s.prod ∣ t.prod := by
  induction h with
  | nil t => exact one_dvd _
  | same a _ ih =>
    rw [List.prod_cons, List.prod_cons]
    exact mul_dvd_mul_left a ih
  | one b _ ih =>
    rw [List.prod_cons, List.prod_cons]
    exact mul_dvd_mul (one_dvd b) ih

/-! ## §2. Positions. -/

/-- On an axis that is not stretched, the coordinate is kept. -/
theorem coordinate_eq_mod (a i : ℕ) : (if a = 1 then 0 else i % a) = i % a := by
  by_cases h : a = 1
  · rw [if_pos h, h, Nat.mod_one]
  · rw [if_neg h]

/-- The position read is one of the tensor, and no further from the end. -/
theorem sourceReversed_tail {s t : List ℕ} (h : StretchesTo s t) {i : ℕ} (hi : i < t.prod) :
    sourceReversed s t i < s.prod ∧ s.prod + i ≤ t.prod + sourceReversed s t i := by
  induction h generalizing i with
  | nil t =>
    rw [sourceReversed, List.prod_nil]
    omega
  | @same a s t _ ih =>
    rw [List.prod_cons] at hi
    obtain ⟨hlt, htail⟩ := ih (Nat.div_lt_of_lt_mul hi)
    have ha : 0 < a := Nat.pos_of_ne_zero fun h => by simp [h] at hi
    have hmod := Nat.mod_lt i ha
    have hdiv := Nat.mod_add_div i a
    rw [sourceReversed, coordinate_eq_mod, List.prod_cons, List.prod_cons]
    constructor
    · calc i % a + a * sourceReversed s t (i / a)
          < a * (sourceReversed s t (i / a) + 1) := by
            rw [Nat.mul_succ]
            omega
        _ ≤ a * s.prod := Nat.mul_le_mul_left a hlt
    · have := Nat.mul_le_mul_left a htail
      rw [Nat.mul_add, Nat.mul_add] at this
      omega
  | @one b s t _ ih =>
    rw [List.prod_cons] at hi
    obtain ⟨hlt, htail⟩ := ih (Nat.div_lt_of_lt_mul hi)
    have hb : 0 < b := Nat.pos_of_ne_zero fun h => by simp [h] at hi
    have hmod := Nat.mod_lt i hb
    have hdiv := Nat.mod_add_div i b
    have hlast : i / b < t.prod := Nat.div_lt_of_lt_mul hi
    rw [sourceReversed, if_pos rfl, List.prod_cons, List.prod_cons, one_mul, one_mul, zero_add]
    refine ⟨hlt, ?_⟩
    -- What is left of the stretched axis is at least one position for each of the others.
    obtain ⟨d, hd⟩ : ∃ d, t.prod = i / b + 1 + d := ⟨t.prod - (i / b + 1), by omega⟩
    have hrest : b * t.prod = b * (i / b) + b + b * d := by
      rw [hd]
      ring
    have hle : d ≤ b * d := Nat.le_mul_of_pos_left d hb
    omega

theorem sourceReversed_self {s : List ℕ} {i : ℕ} (hi : i < s.prod) : sourceReversed s s i = i := by
  induction s generalizing i with
  | nil =>
    rw [List.prod_nil] at hi
    rw [sourceReversed]
    omega
  | cons a s ih =>
    rw [List.prod_cons] at hi
    rw [sourceReversed, coordinate_eq_mod, ih (Nat.div_lt_of_lt_mul hi), Nat.mod_add_div]

/-- A position that is read through a shape in between is read directly. -/
theorem sourceReversed_trans {s t u : List ℕ} (hst : StretchesTo s t) (htu : StretchesTo t u)
    {i : ℕ} (hi : i < u.prod) :
    sourceReversed s t (sourceReversed t u i) = sourceReversed s u i := by
  -- Quotient and remainder of a position by the length of its last axis.
  have hdiv : ∀ a j r : ℕ, r < a → (r + a * j) / a = j := by
    intro a j r hr
    rw [Nat.add_mul_div_left _ _ (by omega), Nat.div_eq_of_lt hr, Nat.zero_add]
  have hmod : ∀ a j r : ℕ, r < a → (r + a * j) % a = r := by
    intro a j r hr
    rw [Nat.add_mul_mod_self_left, Nat.mod_eq_of_lt hr]
  induction hst generalizing u i with
  | nil t => rw [sourceReversed, sourceReversed]
  | @same a s t _ ih =>
    cases htu with
    | @same _ _ u htu =>
      rw [List.prod_cons] at hi
      have ha : 0 < a := Nat.pos_of_ne_zero fun h => by simp [h] at hi
      simp only [sourceReversed, coordinate_eq_mod]
      rw [hdiv _ _ _ (Nat.mod_lt i ha), hmod _ _ _ (Nat.mod_lt i ha),
        ih htu (Nat.div_lt_of_lt_mul hi)]
    | @one b _ u htu =>
      rw [List.prod_cons] at hi
      simp only [sourceReversed, if_true, Nat.zero_add, Nat.one_mul, Nat.div_one]
      exact ih htu (Nat.div_lt_of_lt_mul hi)
  | @one b s t _ ih =>
    cases htu with
    | @same _ _ u htu =>
      rw [List.prod_cons] at hi
      have hb : 0 < b := Nat.pos_of_ne_zero fun h => by simp [h] at hi
      simp only [sourceReversed, coordinate_eq_mod, if_true, Nat.zero_add, Nat.one_mul]
      rw [hdiv _ _ _ (Nat.mod_lt i hb)]
      exact ih htu (Nat.div_lt_of_lt_mul hi)
    | @one c _ u htu =>
      rw [List.prod_cons] at hi
      simp only [sourceReversed, if_true, Nat.zero_add, Nat.one_mul, Nat.div_one]
      exact ih htu (Nat.div_lt_of_lt_mul hi)

/-! ## §3. Shapes listed from the first axis. -/

/-- The first shape stretches to the second. -/
def Stretches (s t : List ℕ) : Prop := StretchesTo s.reverse t.reverse

theorem Stretches.refl (s : List ℕ) : Stretches s s := StretchesTo.refl _

theorem Stretches.trans {s t u : List ℕ} (hst : Stretches s t) (htu : Stretches t u) :
    Stretches s u := StretchesTo.trans hst htu

/-- Both shapes stretch to their common shape. -/
theorem stretches_of_stretch {s t u : List ℕ} (h : stretch s t = some u) :
    Stretches s u ∧ Stretches t u := by
  obtain ⟨v, hv, rfl⟩ := Option.map_eq_some_iff.1 h
  unfold Stretches
  rw [List.reverse_reverse]
  exact stretches_of_stretchReversed hv

/-- A shape that stretches to the other has it for their common shape. -/
theorem stretch_of_stretches {s t : List ℕ} (h : Stretches s t) : stretch s t = some t := by
  unfold stretch
  rw [stretchReversed_of_stretches h, Option.map_some, List.reverse_reverse]

theorem stretch_self (s : List ℕ) : stretch s s = some s := stretch_of_stretches (.refl s)

theorem stretch_comm (s t : List ℕ) : stretch s t = stretch t s := by
  unfold stretch
  rw [stretchReversed_comm]

/-- The length to which vectors of `a` and of `b` entries are stretched. -/
def commonLength (a b : ℕ) : ℕ := if a = 1 then b else a

/-- Vectors stretch to each other if they have one length or one of them a single entry. -/
theorem stretch_vectors {a b : ℕ} {u : List ℕ} (h : stretch [a] [b] = some u) :
    (a = b ∨ a = 1 ∨ b = 1) ∧ u = [commonLength a b] := by
  obtain ⟨v, hv, rfl⟩ := Option.map_eq_some_iff.1 h
  rw [List.reverse_singleton, List.reverse_singleton, stretchReversed,
    show stretchReversed [] [] = some [] from rfl] at hv
  unfold commonLength
  split_ifs at hv with hab ha hb
  · cases hv
    exact ⟨.inl hab, by rw [hab, ite_self]; rfl⟩
  · cases hv
    exact ⟨.inr (.inl ha), by rw [if_pos ha]; rfl⟩
  · cases hv
    exact ⟨.inr (.inr hb), by rw [if_neg ha]; rfl⟩

/-- The common shape is the least to which both shapes stretch. -/
theorem stretch_of_le {s t w : List ℕ} (hs : Stretches s w) (ht : Stretches t w) :
    ∃ u, stretch s t = some u ∧ Stretches u w := by
  obtain ⟨u, hu, huw⟩ := stretchReversed_of_le hs ht
  refine ⟨u.reverse, ?_, ?_⟩
  · unfold stretch
    rw [hu, Option.map_some]
  · unfold Stretches
    rwa [List.reverse_reverse]

/-- A common shape of three shapes does not depend on which two are taken first. -/
theorem stretch_assoc {s t u v w : List ℕ} (hst : stretch s t = some u)
    (huv : stretch u v = some w) : ∃ x, stretch t v = some x ∧ stretch s x = some w := by
  obtain ⟨hsu, htu⟩ := stretches_of_stretch hst
  obtain ⟨huw, hvw⟩ := stretches_of_stretch huv
  obtain ⟨x, hx, hxw⟩ := stretch_of_le (htu.trans huw) hvw
  obtain ⟨y, hy, hyw⟩ := stretch_of_le (hsu.trans huw) hxw
  obtain ⟨htx, hvx⟩ := stretches_of_stretch hx
  obtain ⟨hsy, hxy⟩ := stretches_of_stretch hy
  -- Both groupings are the least shape to which all three stretch.
  obtain ⟨u', hu', huy⟩ := stretch_of_le hsy (htx.trans hxy)
  rw [hst, Option.some.injEq] at hu'
  subst hu'
  obtain ⟨w', hw', hwy⟩ := stretch_of_le huy (hvx.trans hxy)
  rw [huv, Option.some.injEq] at hw'
  subst hw'
  have heq : w = y := List.reverse_injective (StretchesTo.antisymm hwy hyw)
  rw [heq]
  exact ⟨x, hx, hy⟩

/-- A shape stretches to every shape with more axes in front. -/
theorem stretches_append (s t : List ℕ) : Stretches t (s ++ t) := by
  unfold Stretches
  rw [List.reverse_append]
  exact stretchesTo_append _ _

theorem Stretches.prod_dvd {s t : List ℕ} (h : Stretches s t) : s.prod ∣ t.prod := by
  have hdvd := StretchesTo.prod_dvd h
  rwa [List.prod_reverse, List.prod_reverse] at hdvd

/-- The position that is read is one of the stretched tensor. -/
theorem source_lt {s t : List ℕ} (h : Stretches s t) {i : ℕ} (hi : i < t.prod) :
    source s t i < s.prod := by
  rw [← List.prod_reverse] at hi ⊢
  exact (sourceReversed_tail h hi).1

/-- The last entries of a stretched tensor are among the last entries of the tensor. -/
theorem source_tail {s t : List ℕ} (h : Stretches s t) {i : ℕ} (hi : i < t.prod) :
    s.prod + i ≤ t.prod + source s t i := by
  rw [← List.prod_reverse] at hi
  have htail := (sourceReversed_tail h hi).2
  rwa [List.prod_reverse, List.prod_reverse] at htail

/-- A position that is read through a shape in between is read directly. -/
theorem source_trans {s t u : List ℕ} (hst : Stretches s t) (htu : Stretches t u) {i : ℕ}
    (hi : i < u.prod) : source s t (source t u i) = source s u i := by
  rw [← List.prod_reverse] at hi
  exact sourceReversed_trans hst htu hi

/-- A tensor that is not stretched is read where it is. -/
theorem source_self {s : List ℕ} {i : ℕ} (hi : i < s.prod) : source s s i = i := by
  rw [← List.prod_reverse] at hi
  exact sourceReversed_self hi

end Tensor

end PrimalDual
