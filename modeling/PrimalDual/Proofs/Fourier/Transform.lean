/-
  PrimalDual.Proofs.Fourier.Transform
  ───────────────────────────────────
  **THE TRANSFORM OF A TENSOR AND ITS ADJOINT.**

  A real tensor of shape `D = outer ++ [n]` has bins of shape
  `S = outer ++ [h]`, with `h = n/2 + 1`: its lines along the last axis are
  transformed as real lines, those along some of the axes before it as
  complex lines.  As a map of positions,

      real d x          =  spectrum … (spectrum … (halfBins n x))
      inverseReal … P   =  halfLines n (spectrum … (spectrum … P)) / N

  The inner product of two tensors of bins counts the bins along the last
  axis by their weight (`bracket`).  With respect to it the second map is the
  adjoint of the first, up to the factor `1/N` (`dot_inverseReal`).  The two
  pass through the axes in the same order, not in opposite ones; that makes
  no difference, since transforms along different axes commute
  (`spectrum_comm`).
-/
import PrimalDual.Proofs.Fourier.Line
import PrimalDual.Proofs.Operator.Adjoint
import PrimalDual.Proofs.Tensor.Axis

namespace PrimalDual

open Tensor

variable {𝕜 : Type} [RCLike 𝕜]

/-! ## §1. Products of coefficients. -/

namespace Coefficient

/-- The inner product of the parts of two coefficients, conjugate-linear in the first. -/
noncomputable def meet (a b : Coefficient 𝕜) : 𝕜 := star a.re * b.re + star a.im * b.im

theorem star_meet (a b : Coefficient 𝕜) : star (meet a b) = meet b a := by
  unfold meet
  rw [star_add, star_mul, star_mul, star_star, star_star]

theorem meet_sum_left {ι : Type} (s : Finset ι) (f : ι → Coefficient 𝕜) (b : Coefficient 𝕜) :
    meet (∑ i ∈ s, f i) b = ∑ i ∈ s, meet (f i) b := by
  unfold meet
  rw [re_sum, im_sum, star_sum, star_sum, Finset.sum_mul, Finset.sum_mul, Finset.sum_add_distrib]

theorem meet_sum_right {ι : Type} (s : Finset ι) (a : Coefficient 𝕜) (f : ι → Coefficient 𝕜) :
    meet a (∑ i ∈ s, f i) = ∑ i ∈ s, meet a (f i) := by
  unfold meet
  rw [re_sum, im_sum, Finset.mul_sum, Finset.mul_sum, Finset.sum_add_distrib]

/-- Turning one coefficient back is turning the other forward. -/
theorem meet_turned (n j : ℕ) (a b : Coefficient 𝕜) :
    meet (Fourier.Direction.inverse.turned n j a) b
      = meet a (Fourier.Direction.forward.turned n j b) := by
  show star (a.re * _ + a.im * -_) * b.re + star (a.im * _ - a.re * -_) * b.im
    = star a.re * (b.re * _ + b.im * _) + star a.im * (b.im * _ - b.re * _)
  rw [star_add, star_sub, star_mul', star_mul', star_mul', star_mul', star_neg,
    (Fourier.isSelfAdjoint_cosine n j).star_eq, (Fourier.isSelfAdjoint_sine n j).star_eq]
  ring

/-- The two parts of a coefficient are real. -/
structure RealParts (a : Coefficient 𝕜) : Prop where
  re : IsSelfAdjoint a.re
  im : IsSelfAdjoint a.im

theorem RealParts.sum {ι : Type} {s : Finset ι} {f : ι → Coefficient 𝕜}
    (h : ∀ i ∈ s, RealParts (f i)) : RealParts (∑ i ∈ s, f i) where
  re := by
    rw [re_sum]
    exact isSelfAdjoint_sum s fun i hi => (h i hi).re
  im := by
    rw [im_sum]
    exact isSelfAdjoint_sum s fun i hi => (h i hi).im

theorem RealParts.turned {a : Coefficient 𝕜} (h : RealParts a) {c s : 𝕜} (hc : IsSelfAdjoint c)
    (hs : IsSelfAdjoint s) : RealParts (Coefficient.turned c s a) where
  re := (h.re.mul hc).add (h.im.mul hs)
  im := (h.im.mul hc).sub (h.re.mul hs)

/-- A factor with real parts moves to the other side as its conjugate. -/
theorem meet_mul (a b : Coefficient 𝕜) {t : Coefficient 𝕜} (ht : RealParts t) :
    meet (mul () a t) b = meet a (mul () b (conj () t)) := by
  show star (a.re * t.re - a.im * t.im) * b.re + star (a.re * t.im + a.im * t.re) * b.im
    = star a.re * (b.re * t.re - b.im * ((Entry.zero () : 𝕜) - t.im))
      + star a.im * (b.re * ((Entry.zero () : 𝕜) - t.im) + b.im * t.re)
  rw [Entry.zero_exact, star_sub, star_add, star_mul', star_mul', star_mul', star_mul',
    ht.re.star_eq, ht.im.star_eq]
  ring

end Coefficient

namespace Fourier

/-! ## §2. Transforms along an axis. -/

/-- The transform along an axis of length `n` with `p` entries behind it, by positions. -/
noncomputable def spectrum (d : Direction) (n p : ℕ) (v : ℕ → Coefficient 𝕜) (i : ℕ) :
    Coefficient 𝕜 :=
  ∑ j ∈ Finset.range n, d.turned n (j * (i / p % n)) (v (across n n p i j))

theorem spectrum_congr {d : Direction} {n p B : ℕ} {v v' : ℕ → Coefficient 𝕜}
    (h : ∀ i < B * n * p, v i = v' i) {i : ℕ} (hi : i < B * n * p) :
    spectrum d n p v i = spectrum d n p v' i := by
  apply Finset.sum_congr rfl
  intro j hj
  rw [h _ (across_lt hi (Finset.mem_range.1 hj))]

theorem realParts_turned (d : Direction) (n j : ℕ) {a : Coefficient 𝕜} (h : a.RealParts) :
    (d.turned n j a).RealParts := by
  cases d with
  | forward => exact h.turned (isSelfAdjoint_cosine n j) (isSelfAdjoint_sine n j)
  | inverse => exact h.turned (isSelfAdjoint_cosine n j) (isSelfAdjoint_sine n j).neg

theorem turned_comm (d : Direction) (n j m l : ℕ) (a : Coefficient 𝕜) :
    d.turned n j (d.turned m l a) = d.turned m l (d.turned n j a) := by
  cases d <;> exact Coefficient.turned_comm _ _ _ _ _

/-- **Transforms along different axes commute.**  All lines of the second axis lie within
the entries behind the first. -/
theorem spectrum_comm (d : Direction) {n p m q : ℕ} (hn : 0 < n) (hp : 0 < p) (h : m * q ∣ p)
    (v : ℕ → Coefficient 𝕜) :
    spectrum d n p (spectrum d m q v) = spectrum d m q (spectrum d n p v) := by
  funext i
  obtain ⟨t, rfl⟩ := h
  obtain ⟨A, B, x, b, c, hB, hx, hb, hc, rfl⟩ := exists_crossing hn hp i
  unfold spectrum
  rw [coordinate_first hB hx hb hc, coordinate_second hb hc]
  -- On both sides the entry is a sum over a line of each axis, of an entry turned twice.
  calc ∑ j ∈ Finset.range n, d.turned n (j * B) (∑ l ∈ Finset.range m, _)
      = ∑ j ∈ Finset.range n, ∑ l ∈ Finset.range m,
          d.turned n (j * B) (d.turned m (l * b) (v (crossing n m q t A j x l c))) := by
        apply Finset.sum_congr rfl
        intro j _
        rw [map_sum]
        apply Finset.sum_congr rfl
        intro l _
        rw [across_first hB hx hb hc, across_second hb hc, coordinate_second hb hc]
    _ = ∑ l ∈ Finset.range m, ∑ j ∈ Finset.range n,
          d.turned m (l * b) (d.turned n (j * B) (v (crossing n m q t A j x l c))) := by
        rw [Finset.sum_comm]
        apply Finset.sum_congr rfl
        intro l _
        apply Finset.sum_congr rfl
        intro j _
        rw [turned_comm]
    _ = _ := by
        apply Finset.sum_congr rfl
        intro l hl
        have hl' := Finset.mem_range.1 hl
        rw [map_sum]
        apply Finset.sum_congr rfl
        intro j _
        rw [across_second hb hc, across_first hB hx hl' hc, coordinate_first hB hx hl' hc]

/-- The inner product of coefficients at `N` positions, each with a weight. -/
noncomputable def bracket (N : ℕ) (w : ℕ → 𝕜) (u v : ℕ → Coefficient 𝕜) : 𝕜 :=
  ∑ i ∈ Finset.range N, w i * Coefficient.meet (u i) (v i)

theorem star_bracket {N : ℕ} {w : ℕ → 𝕜} (hw : ∀ i, IsSelfAdjoint (w i))
    (u v : ℕ → Coefficient 𝕜) : star (bracket N w u v) = bracket N w v u := by
  unfold bracket
  rw [star_sum]
  apply Finset.sum_congr rfl
  intro i _
  rw [star_mul', (hw i).star_eq, Coefficient.star_meet]

/-- The two directions of a transform along an axis are adjoint if the weights do not
change along it. -/
theorem bracket_spectrum (B n p : ℕ) {w : ℕ → 𝕜}
    (hw : ∀ i < B * n * p, ∀ j < n, w (across n n p i j) = w i) (u v : ℕ → Coefficient 𝕜) :
    bracket (B * n * p) w (spectrum .inverse n p u) v
      = bracket (B * n * p) w u (spectrum .forward n p v) := by
  unfold bracket
  -- Within a line the sum over the bins of `u` is exchanged with that over the entries of `v`.
  calc ∑ i ∈ Finset.range (B * n * p), w i * Coefficient.meet (spectrum .inverse n p u i) (v i)
      = ∑ i ∈ Finset.range (B * n * p), ∑ j ∈ Finset.range n, w (across n n p i j)
          * Coefficient.meet (u (across n n p i j)) (Direction.forward.turned n
            (across n n p i j / p % n * (i / p % n)) (v i)) := by
        apply Finset.sum_congr rfl
        intro i hi
        have hi' := Finset.mem_range.1 hi
        unfold spectrum
        rw [Coefficient.meet_sum_left, Finset.mul_sum]
        apply Finset.sum_congr rfl
        intro j hj
        have hj' := Finset.mem_range.1 hj
        rw [hw i hi' j hj', across_coordinate hi' hj', Coefficient.meet_turned]
    _ = ∑ k ∈ Finset.range (B * n * p), ∑ b ∈ Finset.range n, w k
          * Coefficient.meet (u k) (Direction.forward.turned n
            (k / p % n * (across n n p k b / p % n)) (v (across n n p k b))) :=
        sum_across B n n p fun i k => w k
          * Coefficient.meet (u k) (Direction.forward.turned n (k / p % n * (i / p % n)) (v i))
    _ = ∑ k ∈ Finset.range (B * n * p), w k * Coefficient.meet (u k) (spectrum .forward n p v k) := by
        apply Finset.sum_congr rfl
        intro k hk
        have hk' := Finset.mem_range.1 hk
        unfold spectrum
        rw [Coefficient.meet_sum_right, Finset.mul_sum]
        apply Finset.sum_congr rfl
        intro b hb
        rw [across_coordinate hk' (Finset.mem_range.1 hb), Nat.mul_comm (k / p % n)]

/-! ## §3. Transforms along several axes. -/

/-- The transforms along the given axes of a shape, one after the other. -/
noncomputable def spectra (d : Direction) (S : List ℕ) (axes : List ℕ) (v : ℕ → Coefficient 𝕜) :
    ℕ → Coefficient 𝕜 :=
  axes.foldl (fun v p => spectrum d (S.getD p 1) (stride S p) v) v

/-- The given axes of a shape are not empty, and neither are those behind them. -/
structure Open (S : List ℕ) (axes : List ℕ) : Prop where
  lt : ∀ p ∈ axes, p < S.length
  pos : ∀ p ∈ axes, 0 < S.getD p 1
  stride_pos : ∀ p ∈ axes, 0 < stride S p

theorem Open.tail {S axes : List ℕ} {p : ℕ} (h : Open S (p :: axes)) : Open S axes where
  lt q hq := h.lt q (List.mem_cons_of_mem p hq)
  pos q hq := h.pos q (List.mem_cons_of_mem p hq)
  stride_pos q hq := h.stride_pos q (List.mem_cons_of_mem p hq)

/-- The order of the axes does not matter. -/
theorem spectra_reverse (d : Direction) {S axes : List ℕ} (h : Open S axes)
    (v : ℕ → Coefficient 𝕜) : spectra d S axes.reverse v = spectra d S axes v := by
  refine List.Perm.foldl_eq' (List.reverse_perm axes) ?_ v
  intro p hp q hq z
  rw [List.mem_reverse] at hp hq
  obtain hpq | rfl | hqp := lt_trichotomy p q
  · exact (spectrum_comm d (h.pos p hp) (h.stride_pos p hp) (stride_dvd hpq (h.lt q hq)) z).symm
  · rfl
  · exact spectrum_comm d (h.pos q hq) (h.stride_pos q hq) (stride_dvd hqp (h.lt p hp)) z

/-- **The inverse directions along several axes are adjoint to the forward ones.** -/
theorem bracket_spectra {S axes : List ℕ} (h : Open S axes) {w : ℕ → 𝕜}
    (hw : ∀ p ∈ axes, ∀ i < S.prod, ∀ j < S.getD p 1,
      w (across (S.getD p 1) (S.getD p 1) (stride S p) i j) = w i) (u v : ℕ → Coefficient 𝕜) :
    bracket S.prod w (spectra .inverse S axes u) v
      = bracket S.prod w u (spectra .forward S axes v) := by
  rw [← spectra_reverse .forward h]
  induction axes generalizing u with
  | nil => rfl
  | cons p axes ih =>
    have hprod := prod_axis (h.lt p (List.mem_cons_self ..))
    have hstep := bracket_spectrum (S.take p).prod (S.getD p 1) (stride S p) (w := w) (by
      rw [← hprod]
      exact hw p (List.mem_cons_self ..)) u (spectra .forward S axes.reverse v)
    rw [← hprod] at hstep
    unfold spectra at ih hstep ⊢
    rw [List.foldl_cons, ih h.tail (fun q hq => hw q (List.mem_cons_of_mem p hq)), hstep,
      List.reverse_cons, List.foldl_append]
    rfl

theorem spectra_congr {d : Direction} {S axes : List ℕ} (h : Open S axes)
    {v v' : ℕ → Coefficient 𝕜} (hv : ∀ i < S.prod, v i = v' i) :
    ∀ i < S.prod, spectra d S axes v i = spectra d S axes v' i := by
  induction axes generalizing v v' with
  | nil => exact hv
  | cons p axes ih =>
    apply ih h.tail
    intro i hi
    rw [prod_axis (h.lt p (List.mem_cons_self ..))] at hv hi
    exact spectrum_congr hv hi

theorem realParts_spectra (d : Direction) (S axes : List ℕ) {v : ℕ → Coefficient 𝕜}
    (hv : ∀ i, (v i).RealParts) (i : ℕ) : (spectra d S axes v i).RealParts := by
  induction axes generalizing v with
  | nil => exact hv i
  | cons p axes ih => exact ih fun i => .sum fun j _ => realParts_turned d _ _ (hv _)

/-- The coefficient of a tensor at a position. -/
noncomputable def coefficientAt (X : Tensor Unit (Coefficient 𝕜)) (i : ℕ) : Coefficient 𝕜 :=
  X.entryD 0 i

theorem shape_alongComplex (d : Direction) {X : Tensor Unit (Coefficient 𝕜)} {p : ℕ}
    (hp : p < X.shape.length) : (alongComplex d p (X.shape.getD p 1) X).shape = X.shape :=
  set_axis hp

/-- A tensor transformed along an axis, by positions. -/
theorem alongComplex_at (d : Direction) {X : Tensor Unit (Coefficient 𝕜)} {p : ℕ}
    (hp : p < X.shape.length) (hn : 0 < X.shape.getD p 1) {i : ℕ} (hi : i < X.shape.prod) :
    coefficientAt (alongComplex d p (X.shape.getD p 1) X) i
      = spectrum d (X.shape.getD p 1) (stride X.shape p) (coefficientAt X) i := by
  have hi' : i < (X.shape.set p (X.shape.getD p 1)).prod := by rwa [set_axis hp]
  unfold coefficientAt alongComplex
  dsimp only
  rw [Coefficient.zero_eq]
  refine (entryD_mapLines _ _ _ _ hp hi').trans ?_
  exact complexBins_entry hn d _ (Nat.mod_lt _ hn) _

/-- Several transforms of a tensor, by positions. -/
theorem foldl_alongComplex (d : Direction) {S axes : List ℕ} (h : Open S axes)
    {X : Tensor Unit (Coefficient 𝕜)} (hX : X.shape = S) :
    (axes.foldl (fun s p => alongComplex d p (S.getD p 1) s) X).shape = S
      ∧ ∀ i < S.prod, coefficientAt (axes.foldl (fun s p => alongComplex d p (S.getD p 1) s) X) i
        = spectra d S axes (coefficientAt X) i := by
  induction axes generalizing X with
  | nil => exact ⟨hX, fun i _ => rfl⟩
  | cons p axes ih =>
    have hp : p < X.shape.length := by
      rw [hX]
      exact h.lt p (List.mem_cons_self ..)
    have hn : 0 < X.shape.getD p 1 := by
      rw [hX]
      exact h.pos p (List.mem_cons_self ..)
    have hshape := shape_alongComplex d hp
    have hat := @alongComplex_at _ _ d X p hp hn
    rw [hX] at hshape hat
    obtain ⟨hfinal, hentries⟩ := ih h.tail hshape
    refine ⟨hfinal, ?_⟩
    intro i hi
    rw [List.foldl_cons, hentries i hi]
    exact spectra_congr h.tail (fun i hi => hat hi) i hi

/-- The length of a transformed axis may be read off the tensor at any time. -/
theorem foldl_own_length (d : Direction) {S axes : List ℕ} (h : ∀ p ∈ axes, p < S.length)
    {X : Tensor Unit (Coefficient 𝕜)} (hX : X.shape = S) :
    axes.foldl (fun s p => alongComplex d p (s.shape.getD p 1) s) X
      = axes.foldl (fun s p => alongComplex d p (S.getD p 1) s) X := by
  induction axes generalizing X with
  | nil => rfl
  | cons p axes ih =>
    have hp : p < X.shape.length := by
      rw [hX]
      exact h p (List.mem_cons_self ..)
    have hshape := shape_alongComplex d hp
    rw [List.foldl_cons, List.foldl_cons]
    rw [hX] at hshape ⊢
    exact ih (fun q hq => h q (List.mem_cons_of_mem p hq)) hshape

/-! ## §4. The last axis. -/

section LastAxis

variable {outer : List ℕ} {n : ℕ}

/-- The number of bins of a real line of length `n`. -/
def binCount (n : ℕ) : ℕ := n / 2 + 1

theorem binCount_pos (n : ℕ) : 0 < binCount n := Nat.succ_pos _

theorem last_lt (outer : List ℕ) (m : ℕ) : outer.length < (outer ++ [m]).length := by
  rw [List.length_append, List.length_singleton]
  exact Nat.lt_succ_self _

theorem getD_last (outer : List ℕ) (m : ℕ) : (outer ++ [m]).getD outer.length 1 = m := by
  rw [List.getD_eq_getElem?_getD, List.getElem?_append_right le_rfl, Nat.sub_self]
  rfl

theorem stride_last (outer : List ℕ) (m : ℕ) : stride (outer ++ [m]) outer.length = 1 := by
  unfold stride
  rw [List.drop_of_length_le (by rw [List.length_append, List.length_singleton])]
  rfl

theorem set_last (outer : List ℕ) (m k : ℕ) : (outer ++ [m]).set outer.length k = outer ++ [k] := by
  rw [List.set_append_right _ _ le_rfl, Nat.sub_self]
  rfl

theorem prod_last (outer : List ℕ) (m : ℕ) : (outer ++ [m]).prod = outer.prod * m * 1 := by
  rw [List.prod_append, List.prod_singleton, Nat.mul_one]

/-- The bins of the lines along the last axis, by positions. -/
noncomputable def halfBins (n : ℕ) (y : ℕ → 𝕜) (i : ℕ) : Coefficient 𝕜 where
  re := ∑ j ∈ Finset.range n, y (across (binCount n) n 1 i j) * cosine n (j * (i % binCount n))
  im := -∑ j ∈ Finset.range n, y (across (binCount n) n 1 i j) * sine n (j * (i % binCount n))

theorem realParts_halfBins {y : ℕ → 𝕜} (hy : ∀ i, IsSelfAdjoint (y i)) (i : ℕ) :
    (halfBins n y i).RealParts where
  re := by
    dsimp only [halfBins]
    exact isSelfAdjoint_sum _ fun j _ => (hy _).mul (isSelfAdjoint_cosine n _)
  im := by
    dsimp only [halfBins]
    exact (isSelfAdjoint_sum _ fun j _ => (hy _).mul (isSelfAdjoint_sine n _)).neg

/-- The lines along the last axis with given bins, by positions. -/
noncomputable def halfLines (n : ℕ) (v : ℕ → Coefficient 𝕜) (k : ℕ) : 𝕜 :=
  ∑ b ∈ Finset.range (binCount n), weight n b
    * ((v (across n (binCount n) 1 k b)).re * cosine n (b * (k % n))
      - (v (across n (binCount n) 1 k b)).im * sine n (b * (k % n)))

/-- Only positions of bins are read. -/
theorem halfLines_congr {B : ℕ} {v v' : ℕ → Coefficient 𝕜}
    (h : ∀ i < B * binCount n * 1, v i = v' i) {k : ℕ} (hk : k < B * n * 1) :
    halfLines n v k = halfLines n v' k := by
  unfold halfLines
  apply Finset.sum_congr rfl
  intro b hb
  rw [h _ (across_lt hk (Finset.mem_range.1 hb))]

/-- The weight of a position of bins. -/
noncomputable def binWeight (n i : ℕ) : 𝕜 := weight n (i % binCount n)

/-- Along the last axis the two transforms are adjoint. -/
theorem sum_halfLines (B n : ℕ) (v : ℕ → Coefficient 𝕜) (y : ℕ → 𝕜) :
    ∑ k ∈ Finset.range (B * n * 1), star (halfLines n v k) * y k
      = bracket (B * binCount n * 1) (binWeight n) v (halfBins n y) := by
  unfold bracket
  -- Within a line the sum over its entries is exchanged with that over its bins.
  calc ∑ k ∈ Finset.range (B * n * 1), star (halfLines n v k) * y k
      = ∑ k ∈ Finset.range (B * n * 1), ∑ b ∈ Finset.range (binCount n),
          weight n (across n (binCount n) 1 k b % binCount n)
            * (star (v (across n (binCount n) 1 k b)).re
                * cosine n (across n (binCount n) 1 k b % binCount n * (k % n))
              - star (v (across n (binCount n) 1 k b)).im
                * sine n (across n (binCount n) 1 k b % binCount n * (k % n))) * y k := by
        apply Finset.sum_congr rfl
        intro k hk
        unfold halfLines
        rw [star_sum, Finset.sum_mul]
        apply Finset.sum_congr rfl
        intro b hb
        have hb' := across_coordinate (Finset.mem_range.1 hk) (Finset.mem_range.1 hb)
        rw [Nat.div_one] at hb'
        rw [hb', star_mul', star_sub, star_mul', star_mul', (isSelfAdjoint_weight n b).star_eq,
          (isSelfAdjoint_cosine n _).star_eq, (isSelfAdjoint_sine n _).star_eq]
    _ = ∑ i ∈ Finset.range (B * binCount n * 1), ∑ j ∈ Finset.range n,
          weight n (i % binCount n)
            * (star (v i).re * cosine n (i % binCount n * (across (binCount n) n 1 i j % n))
              - star (v i).im * sine n (i % binCount n * (across (binCount n) n 1 i j % n)))
            * y (across (binCount n) n 1 i j) :=
        (sum_across B (binCount n) n 1 fun i k => weight n (i % binCount n)
          * (star (v i).re * cosine n (i % binCount n * (k % n))
            - star (v i).im * sine n (i % binCount n * (k % n))) * y k).symm
    _ = ∑ i ∈ Finset.range (B * binCount n * 1),
          binWeight n i * Coefficient.meet (v i) (halfBins n y i) := by
        apply Finset.sum_congr rfl
        intro i hi
        unfold binWeight Coefficient.meet halfBins
        rw [mul_add, mul_neg, mul_neg, ← sub_eq_add_neg, Finset.mul_sum, Finset.mul_sum,
          Finset.mul_sum, Finset.mul_sum, ← Finset.sum_sub_distrib]
        apply Finset.sum_congr rfl
        intro j hj
        have hj' := across_coordinate (Finset.mem_range.1 hi) (Finset.mem_range.1 hj)
        rw [Nat.div_one] at hj'
        rw [hj', Nat.mul_comm (i % binCount n) j]
        ring

/-- The bins of a tensor along its last axis. -/
theorem realBins_at {x : Tensor Unit 𝕜} (hx : x.shape = outer ++ [n]) (hn : 0 < n) {i : ℕ}
    (hi : i < (outer ++ [binCount n]).prod) :
    coefficientAt (x.mapLines () (Entry.zero ()) (Coefficient.zero ()) outer.length (n / 2 + 1)
      (realBins () (stages () (Control.realRadices ℝ n).factors))) i = halfBins n x.entry i := by
  have hi' : i < (x.shape.set outer.length (n / 2 + 1)).prod := by
    rw [hx, set_last]
    exact hi
  have hp : outer.length < x.shape.length := by
    rw [hx]
    exact last_lt outer n
  unfold coefficientAt
  rw [Coefficient.zero_eq, entryD_mapLines _ _ _ _ hp hi', hx, getD_last, stride_last, Nat.div_one]
  exact realBins_entry hn _ (Nat.mod_lt _ (binCount_pos n)) _

/-- The lines of a tensor along its last axis, from their bins. -/
theorem realLine_at {X : Tensor Unit (Coefficient 𝕜)} (hX : X.shape = outer ++ [binCount n])
    (hn : 0 < n) {k : ℕ} (hk : k < (outer ++ [n]).prod) :
    (X.mapLines () (Coefficient.zero ()) (Entry.zero ()) outer.length n
      (realLine () (stages () (Control.realRadices ℝ n).factors))).entry k
      = halfLines n (coefficientAt X) k := by
  have hk' : k < (X.shape.set outer.length n).prod := by
    rw [hX, set_last]
    exact hk
  have hp : outer.length < X.shape.length := by
    rw [hX]
    exact last_lt outer _
  refine (entryD_mapLines _ _ _ _ hp hk').trans ?_
  rw [hX, getD_last, stride_last, Nat.div_one, Coefficient.zero_eq]
  exact realLine_entry hn _ (Nat.mod_lt _ hn) _

end LastAxis

/-! ## §5. Tensors over their last axes. -/

/-- The axes of a shape without empty axes from a place on. -/
theorem open_range {S : List ℕ} {k l : ℕ} (hpos : ∀ m ∈ S.drop k, 0 < m)
    (hl : k + l ≤ S.length) : Open S (List.range' k l) where
  lt p hp := by
    have hp := List.mem_range'_1.1 hp
    omega
  pos p hp := by
    have hp := List.mem_range'_1.1 hp
    have hlt : p < S.length := by omega
    rw [getD_axis hlt]
    refine hpos _ (List.mem_drop_iff_getElem.2 ⟨p - k, by omega, ?_⟩)
    congr 1
    omega
  stride_pos p hp := by
    have hp := List.mem_range'_1.1 hp
    apply List.prod_pos
    intro m hm
    refine hpos m ?_
    exact List.drop_subset_drop_left S (by omega) hm

section LastAxes

variable {batch init : List ℕ} {n : ℕ}

/-- The shape of the bins of a tensor whose last axis has length `n`. -/
def binShape (batch init : List ℕ) (n : ℕ) : List ℕ := batch ++ init ++ [binCount n]

/-- The axes in front of the last one that are transformed. -/
def innerAxes (batch init : List ℕ) : List ℕ := List.range' batch.length init.length

theorem open_innerAxes (hpos : ∀ m ∈ init, 0 < m) :
    Open (binShape batch init n) (innerAxes batch init) := by
  refine open_range ?_ (by simp [binShape])
  intro m hm
  unfold binShape at hm
  rw [List.append_assoc, List.drop_left, List.mem_append, List.mem_singleton] at hm
  obtain hm | rfl := hm
  · exact hpos m hm
  · exact binCount_pos n

theorem prod_binShape : (binShape batch init n).prod = (batch ++ init).prod * binCount n * 1 :=
  prod_last _ _

/-- The weight of a position of bins does not change along the other axes. -/
theorem binWeight_across {p : ℕ} (hp : p ∈ innerAxes batch init) (i j : ℕ) :
    (binWeight n (across ((binShape batch init n).getD p 1) ((binShape batch init n).getD p 1)
      (stride (binShape batch init n) p) i j) : 𝕜) = binWeight n i := by
  have hp := List.mem_range'_1.1 hp
  have hlast : p < (batch ++ init).length := by
    rw [List.length_append]
    exact hp.2
  have hdvd := stride_dvd hlast (last_lt (batch ++ init) (binCount n))
  rw [getD_last, stride_last, Nat.mul_one] at hdvd
  change binCount n ∣ stride (binShape batch init n) p at hdvd
  unfold binWeight across
  rw [Nat.add_mod, Nat.mod_mod_of_dvd _ hdvd, Nat.mod_eq_zero_of_dvd (hdvd.mul_left _),
    Nat.zero_add, Nat.mod_mod]

/-- The bins of a real tensor, by positions. -/
theorem real_at {x : Tensor Unit 𝕜} (hx : x.shape = batch ++ init ++ [n]) (hn : 0 < n)
    (hpos : ∀ m ∈ init, 0 < m) :
    (real (init.length + 1) x).shape = binShape batch init n
      ∧ ∀ i < (binShape batch init n).prod, coefficientAt (real (init.length + 1) x) i
        = spectra .forward (binShape batch init n) (innerAxes batch init) (halfBins n x.entry) i := by
  have hopen : Open (binShape batch init n) (innerAxes batch init) := open_innerAxes hpos
  have haxes : x.axes = (batch ++ init).length + 1 := by
    unfold Tensor.axes
    rw [hx, List.length_append, List.length_singleton]
  have hfirst : x.axes - (init.length + 1) = batch.length := by
    rw [haxes, List.length_append]
    omega
  obtain ⟨half, hhalf⟩ : ∃ half, half = x.mapLines () (Entry.zero ()) (Coefficient.zero ())
      (batch ++ init).length (n / 2 + 1)
      (realBins () (stages () (Control.realRadices ℝ n).factors)) := ⟨_, rfl⟩
  have hreal : real (init.length + 1) x = (innerAxes batch init).foldl
      (fun s p => alongComplex .forward p (s.shape.getD p 1) s) half := by
    rw [hhalf]
    unfold real
    dsimp only
    rw [hfirst, haxes, Nat.add_sub_cancel, Nat.add_sub_cancel, hx, getD_last]
    rfl
  have hshape : half.shape = binShape batch init n := by
    rw [hhalf]
    exact (congrArg (fun s => List.set s _ _) hx).trans (set_last _ _ _)
  -- A transform keeps the shape, so every axis still has the length that it had at first.
  obtain ⟨hfinal, hentries⟩ := foldl_alongComplex .forward hopen hshape
  rw [hreal, foldl_own_length .forward hopen.lt hshape]
  refine ⟨hfinal, fun i hi => (hentries i hi).trans ?_⟩
  refine spectra_congr hopen ?_ i hi
  intro i hi
  rw [hhalf]
  exact realBins_at hx hn hi

/-- The lengths of the inner axes with the axes themselves. -/
theorem zipIdx_innerAxes : init.zipIdx batch.length
    = (innerAxes batch init).map fun p => ((binShape batch init n).getD p 1, p) := by
  apply List.ext_getElem (by simp [innerAxes])
  intro i h _
  rw [List.length_zipIdx] at h
  rw [List.getElem_zipIdx, List.getElem_map]
  unfold innerAxes binShape
  rw [List.getElem_range', Nat.one_mul, List.append_assoc, List.getD_eq_getElem?_getD,
    List.getElem?_append_right (Nat.le_add_right _ _), Nat.add_sub_cancel_left,
    List.getElem?_append_left h, List.getElem?_eq_getElem h, Option.getD_some]

/-- The factor that takes the number of bins out of an inverse transform. -/
noncomputable def share (𝕜 : Type) [RCLike 𝕜] (lengths : List ℕ) : 𝕜 :=
  Entry.div () (Entry.one ()) (Entry.ofControl () (Control.ofInt lengths.prod : ℝ))

theorem isSelfAdjoint_share (lengths : List ℕ) : IsSelfAdjoint (share 𝕜 lengths) := by
  have hreal : ∀ r : ℝ, IsSelfAdjoint (r : 𝕜) := fun r => RCLike.conj_ofReal r
  exact (hreal _).div (hreal _)

/-- The real tensor with given bins, by positions. -/
theorem inverseReal_at {P : Tensor Unit (Coefficient 𝕜)} (hP : P.shape = binShape batch init n)
    (hn : 0 < n) (hpos : ∀ m ∈ init, 0 < m) :
    (inverseReal (init ++ [n]) P).shape = batch ++ init ++ [n]
      ∧ ∀ k < (batch ++ init ++ [n]).prod, (inverseReal (init ++ [n]) P).entry k
        = halfLines n (spectra .inverse (binShape batch init n) (innerAxes batch init)
          (coefficientAt P)) k * share 𝕜 (init ++ [n]) := by
  have hopen : Open (binShape batch init n) (innerAxes batch init) := open_innerAxes hpos
  have haxes : P.axes = (batch ++ init).length + 1 := by
    unfold Tensor.axes
    rw [hP]
    unfold binShape
    rw [List.length_append, List.length_singleton]
  have hfirst : P.axes - (init ++ [n]).length = batch.length := by
    rw [haxes, List.length_append, List.length_append, List.length_singleton]
    omega
  -- First the complex axes are transformed back, then each line of the last axis.
  obtain ⟨hfull, hentries⟩ := foldl_alongComplex .inverse hopen hP
  obtain ⟨full, hdef⟩ : ∃ full, full = (innerAxes batch init).foldl
      (fun s p => alongComplex .inverse p ((binShape batch init n).getD p 1) s) P := ⟨_, rfl⟩
  rw [← hdef] at hfull hentries
  have hinverse : inverseReal (init ++ [n]) P = (full.mapLines () (Coefficient.zero ())
      (Entry.zero ()) (batch ++ init).length n
      (realLine () (stages () (Control.realRadices ℝ n).factors))).map ()
        fun a => a * share 𝕜 (init ++ [n]) := by
    rw [hdef]
    unfold inverseReal
    dsimp only
    rw [hfirst, haxes, Nat.add_sub_cancel, List.dropLast_concat, zipIdx_innerAxes (n := n),
      List.foldl_map, List.getLastD_concat]
    rfl
  rw [hinverse]
  refine ⟨?_, ?_⟩
  · rw [shape_map]
    exact (congrArg (fun s => List.set s _ _) hfull).trans (set_last _ _ _)
  · intro k hk
    rw [entry_map (fun a => a * share 𝕜 (init ++ [n])) (zero_mul _), realLine_at hfull hn hk]
    rw [prod_last] at hk
    rw [prod_binShape] at hentries
    rw [halfLines_congr hentries hk]

/-- **The two transforms are adjoint**, up to a factor, if bins are counted by their weight. -/
theorem dot_inverseReal {P : Tensor Unit (Coefficient 𝕜)} {y : Tensor Unit 𝕜}
    (hP : P.shape = binShape batch init n) (hy : y.shape = batch ++ init ++ [n]) (hn : 0 < n)
    (hpos : ∀ m ∈ init, 0 < m) :
    dot (inverseReal (init ++ [n]) P) y
      = share 𝕜 (init ++ [n]) * bracket (binShape batch init n).prod (binWeight n)
        (coefficientAt P) (coefficientAt (real (init.length + 1) y)) := by
  have hopen : Open (binShape batch init n) (innerAxes batch init) := open_innerAxes hpos
  obtain ⟨hshape, hentry⟩ := inverseReal_at hP hn hpos
  obtain ⟨-, hbins⟩ := real_at hy hn hpos
  calc dot (inverseReal (init ++ [n]) P) y
      = share 𝕜 (init ++ [n]) * ∑ k ∈ Finset.range ((batch ++ init).prod * n * 1),
          star (halfLines n (spectra .inverse (binShape batch init n) (innerAxes batch init)
            (coefficientAt P)) k) * y.entry k := by
        unfold dot
        rw [size_eq, hshape, ← prod_last, Finset.mul_sum]
        apply Finset.sum_congr rfl
        intro k hk
        rw [hentry k (Finset.mem_range.1 hk), star_mul', (isSelfAdjoint_share _).star_eq]
        ring
    _ = share 𝕜 (init ++ [n]) * bracket (binShape batch init n).prod (binWeight n)
          (spectra .inverse (binShape batch init n) (innerAxes batch init) (coefficientAt P))
          (halfBins n y.entry) := by
        rw [sum_halfLines, prod_binShape]
    _ = share 𝕜 (init ++ [n]) * bracket (binShape batch init n).prod (binWeight n)
          (coefficientAt P) (spectra .forward (binShape batch init n) (innerAxes batch init)
            (halfBins n y.entry)) := by
        rw [bracket_spectra hopen fun p hp i _ j _ => binWeight_across hp i j]
    _ = _ := by
        unfold bracket
        refine congrArg (share 𝕜 (init ++ [n]) * ·) (Finset.sum_congr rfl ?_)
        intro i hi
        rw [hbins i (Finset.mem_range.1 hi)]

end LastAxes

end Fourier

end PrimalDual
