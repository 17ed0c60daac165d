import Courses.Collinear.Bases

/-!
# The array of the segments

The segments fill the first slots of an array of `2 ^ k` slots. The array is doubled when it is
full, but the length after `2 ^ 30` is negative, so that there is no room for more segments.
-/
namespace Courses.Collinear

open Courses.Lib

/-- The segments are in the first slots of an array that has been doubled `k` times. -/
structure Held (s : Segments) (ls : List LineSegment) : Prop where
  slots : HoldsFirst s.array ls
  numSegs : s.numSegs = ls.length
  doubled : ∃ k < 30, s.array.length = 2 ^ (k + 1)

variable {s : Segments} {ls ms : List LineSegment} {l : LineSegment}

theorem held_noSegments : Held noSegments [] :=
  ⟨⟨2, rfl⟩, rfl, 0, by norm_num, rfl⟩

namespace Held

theorem length_le (h : Held s ls) : ls.length ≤ 2 ^ 30 := by
  obtain ⟨k, hk, hlength⟩ := h.doubled
  calc ls.length ≤ 2 ^ (k + 1) := hlength ▸ h.slots.length_le
    _ ≤ 2 ^ 30 := Nat.pow_le_pow_right (by norm_num) (by omega)

theorem copy (h : Held s ls) {n : ℕ} (hn : ls.length ≤ n) :
    copySlots (some s.array) 0 (List.replicate n none) s.numSegs.toNat =
      .ok (ls.map some ++ List.replicate (n - ls.length) none) := by
  have hslots : HoldsFirst ((some s.array).getD []) ls := h.slots
  rw [h.numSegs, Int.toNat_natCast]
  exact hslots.copy_ok hn

/-! ## One more segment -/

theorem expand_ok (h : Held s ls) (hlt : ls.length < 2 ^ 30) :
    ∃ array, expand s = .ok array ∧ Held ⟨array, s.numSegs⟩ ls ∧ ls.length < array.length := by
  have hnum := h.numSegs
  obtain ⟨k, hk, hlength⟩ := h.doubled
  by_cases hfull : s.array.length = s.numSegs
  · have heq : ls.length = 2 ^ (k + 1) := by omega
    have hk' : k + 1 < 30 := (Nat.pow_lt_pow_iff_right (by norm_num)).1 (heq ▸ hlt)
    have hresize : int32 (s.array.length * 2) = (2 ^ (k + 2) : ℕ) := by
      rw [int32_eq (by omega) (by omega), hlength, pow_succ 2 (k + 1)]
      push_cast
      ring
    have hle : ls.length < 2 ^ (k + 2) := by
      rw [heq]
      exact Nat.pow_lt_pow_right (by norm_num) (by omega)
    have hroom : (ls.map some ++
        List.replicate (2 ^ (k + 2) - ls.length) none : Slots LineSegment).length =
          2 ^ (k + 2) := by
      rw [List.length_append, List.length_map, List.length_replicate]
      omega
    refine ⟨_, ?_, ⟨⟨_, rfl⟩, hnum, k + 1, hk', hroom⟩, by rwa [hroom]⟩
    rw [expand, if_pos hfull, hresize, newSlots_natCast]
    exact h.copy hle.le
  · have hle := h.slots.length_le
    refine ⟨s.array, ?_, h, by omega⟩
    rw [expand, if_neg hfull]

theorem expand_full (h : Held s ls) (hfull : ls.length = 2 ^ 30) :
    expand s = .error .negativeArraySize := by
  have hnum := h.numSegs
  obtain ⟨k, hk, hlength⟩ := h.doubled
  have hle := h.slots.length_le
  have hpow : (2 : ℕ) ^ (k + 1) ≤ 2 ^ 30 := Nat.pow_le_pow_right (by norm_num) (by omega)
  have heq : s.array.length = s.numSegs := by omega
  have hresize : int32 (s.array.length * 2) < 0 := by
    rw [int32_eq_sub (by omega) (by omega)]
    omega
  rw [expand, if_pos heq, newSlots_neg hresize]
  rfl

theorem insertSegment_ok (h : Held s ls) (hlt : ls.length < 2 ^ 30) (l : LineSegment) :
    ∃ s', insertSegment s l = .ok s' ∧ Held s' (ls ++ [l]) := by
  obtain ⟨array, hexpand, hheld, hroom⟩ := h.expand_ok hlt
  have hnum := h.numSegs
  have hput : putSlot (some array) s.numSegs (some l) = .ok (array.set ls.length (some l)) := by
    rw [hnum]
    exact putSlot_of_lt hroom (some l)
  refine ⟨⟨array.set ls.length (some l), int32 (s.numSegs + 1)⟩, ?_,
    hheld.slots.set_length hroom l, ?_, ?_⟩
  · simp only [insertSegment, hexpand, bind, Except.bind, hput]
    rfl
  · rw [int32_eq (by omega) (by omega), hnum]
    simp
  · simpa using hheld.doubled

theorem insertSegment_full (h : Held s ls) (hfull : ls.length = 2 ^ 30) (l : LineSegment) :
    insertSegment s l = .error .negativeArraySize := by
  rw [insertSegment, h.expand_full hfull]
  rfl

/-! ## Many segments -/

theorem insertAll_ok (h : Held s ls) (hle : (ls ++ ms).length ≤ 2 ^ 30) :
    ∃ s', ms.foldlM insertSegment s = .ok s' ∧ Held s' (ls ++ ms) := by
  induction ms generalizing s ls with
  | nil => exact ⟨s, rfl, by simpa using h⟩
  | cons m ms ih =>
    rw [List.length_append, List.length_cons] at hle
    obtain ⟨s', hinsert, hheld⟩ := h.insertSegment_ok (by omega) m
    obtain ⟨s'', hfold, hheld⟩ := ih hheld (by simp; omega)
    refine ⟨s'', ?_, by simpa using hheld⟩
    rw [List.foldlM_cons, hinsert]
    exact hfold

theorem insertAll_error (h : Held s ls) (hlt : 2 ^ 30 < (ls ++ ms).length) :
    ms.foldlM insertSegment s = .error .negativeArraySize := by
  induction ms generalizing s ls with
  | nil =>
    have hle := h.length_le
    simp only [List.append_nil] at hlt
    omega
  | cons m ms ih =>
    rw [List.foldlM_cons]
    by_cases hfull : ls.length = 2 ^ 30
    · rw [h.insertSegment_full hfull]
      rfl
    · have hle := h.length_le
      obtain ⟨s', hinsert, hheld⟩ := h.insertSegment_ok (by omega) m
      rw [hinsert]
      exact ih hheld (by simpa using hlt)

theorem shrink_ok (h : Held s ls) : shrink s = .ok ⟨ls.map some, ls.length⟩ := by
  have hnum := h.numSegs
  rw [shrink]
  split
  · rename_i hfull
    obtain ⟨r, hr⟩ := h.slots
    have hzero : r = 0 := by
      rw [hnum, hr] at hfull
      simpa using hfull
    rw [hzero, List.replicate_zero, List.append_nil] at hr
    cases s with
    | mk array numSegs => simp_all
  · have hcopy := h.copy le_rfl
    rw [hnum, newSlots_natCast]
    rw [hnum] at hcopy
    simp only [bind, Except.bind, hcopy]
    simp [pure, Except.pure]

end Held

/-! ## The constructor -/

variable {points : List Point}

theorem checkPoints_ok (hnodup : points.Nodup) : checkPoints (points.map some) = .ok () := by
  induction points with
  | nil => rfl
  | cons p ps ih =>
    obtain ⟨hp, hps⟩ := List.nodup_cons.1 hnodup
    have hpairs : ∀ qs : List Point, p ∉ qs →
        (qs.map some).forM (checkPair (some p)) = .ok () := by
      intro qs hqs
      induction qs with
      | nil => rfl
      | cons q qs ihq =>
        rw [List.mem_cons, not_or] at hqs
        have hne : p.compareTo q ≠ 0 := fun h => hqs.1 (Point.compareTo_eq_zero_iff.1 h)
        rw [List.map_cons, List.forM, checkPair, if_neg hne]
        exact ihq hqs.2
    rw [List.map_cons, checkPoints, hpairs ps hp]
    exact ih hps

theorem nonNull_ok (points : List Point) : nonNull (points.map some) = .ok points := by
  rw [nonNull]
  induction points with
  | nil => rfl
  | cons p ps ih =>
    rw [List.map_cons, List.mapM_cons, ih]
    rfl

/-- The segments that all points report as bases. -/
def foundSegments (points : List Point) : List LineSegment :=
  allSegments (sortPoints points) points

theorem new_eq (hnodup : points.Nodup) :
    FastCollinearPoints.new (some (points.map some)) = (do
      let segments ← shrink (← (foundSegments points).foldlM insertSegment noSegments)
      return ⟨segments.array, segments.numSegs⟩) := by
  rw [FastCollinearPoints.new]
  simp only [checkPoints_ok hnodup, nonNull_ok, findLineSeg, findFrom_eq]
  rfl

theorem new_ok (hnodup : points.Nodup) (hle : (foundSegments points).length ≤ 2 ^ 30) :
    FastCollinearPoints.new (some (points.map some)) =
      .ok ⟨(foundSegments points).map some, (foundSegments points).length⟩ := by
  obtain ⟨s, hfold, hheld⟩ := held_noSegments.insertAll_ok (by simpa using hle)
  rw [new_eq hnodup, hfold]
  simp only [bind, Except.bind, hheld.shrink_ok]
  rfl

theorem new_error (hnodup : points.Nodup) (hlt : 2 ^ 30 < (foundSegments points).length) :
    FastCollinearPoints.new (some (points.map some)) = .error .negativeArraySize := by
  rw [new_eq hnodup, held_noSegments.insertAll_error (by simpa using hlt)]
  rfl

theorem segments_eq (ls : List LineSegment) (n : ℤ) :
    FastCollinearPoints.segments ⟨ls.map some, n⟩ = .ok (ls.map some) := by
  have hslots : HoldsFirst ((some (ls.map some)).getD []) ls := ⟨0, by simp⟩
  have hcopy := hslots.copy_ok le_rfl
  rw [Nat.sub_self, List.replicate_zero, List.append_nil] at hcopy
  rw [FastCollinearPoints.segments, newSlots_natCast, List.length_map]
  exact hcopy

end Courses.Collinear

/-!
# The segments that are reported

Each maximal set of collinear points is reported once, by its least point, as long as there are
at most `2 ^ 30` of them. The points of a rectangle with 68 rows have more.
-/
namespace Courses.Collinear

open Courses.Lib

variable {points : List Point} {segs : List LineSegment} {S : Finset Point}

/-- One segment for each maximal set, which is its segment, and no other segments. -/
def OneSegmentEach (points : List Point) (segs : List LineSegment) : Prop :=
  ∃ f : Fin segs.length → {S // MaximalCollinear points S},
    Function.Bijective f ∧ ∀ i, EndPoints (f i).1 (segs.get i)

/-- The constructor returns, and the object has one segment for each maximal set. -/
def Reports (points : List Point) : Prop :=
  ∃ c segs, FastCollinearPoints.new (some (points.map some)) = .ok c ∧
    c.segments = .ok (segs.map some) ∧ c.numberOfSegments = segs.length ∧
      OneSegmentEach points segs

/-! ## One segment each -/

theorem oneSegmentEach (hnodup : segs.Nodup)
    (hmem : ∀ l, l ∈ segs ↔ ∃ S, MaximalCollinear points S ∧ EndPoints S l) :
    OneSegmentEach points segs := by
  have hset : ∀ i : Fin segs.length, ∃ S, MaximalCollinear points S ∧ EndPoints S (segs.get i) :=
    fun i => (hmem _).1 (List.get_mem segs i)
  choose f hf hends using hset
  refine ⟨fun i => ⟨f i, hf i⟩, ⟨?_, ?_⟩, hends⟩
  · intro i j hij
    have heq : f i = f j := congrArg Subtype.val hij
    have hj := hends j
    rw [← heq] at hj
    exact hnodup.injective_get ((hends i).unique hj)
  · intro S
    obtain ⟨l, hl⟩ := S.2.exists_endPoints
    obtain ⟨i, hi⟩ := List.get_of_mem ((hmem l).2 ⟨S.1, S.2, hl⟩)
    have hi := hi ▸ hends i
    exact ⟨i, Subtype.ext ((hf i).eq_of_endPoints S.2 hi hl)⟩

theorem OneSegmentEach.ncard (h : OneSegmentEach points segs) :
    {S | MaximalCollinear points S}.ncard = segs.length := by
  obtain ⟨f, hf, -⟩ := h
  calc {S | MaximalCollinear points S}.ncard
      = Nat.card {S // MaximalCollinear points S} := (Nat.card_coe_set_eq _).symm
    _ = Nat.card (Fin segs.length) := (Nat.card_congr (Equiv.ofBijective f hf)).symm
    _ = segs.length := Nat.card_fin _

theorem maximalCollinear_subset (points : List Point) :
    {S | MaximalCollinear points S} ⊆ (points.toFinset.powerset : Set (Finset Point)) :=
  fun _ hS => Finset.mem_coe.2 (Finset.mem_powerset.2 hS.subset)

theorem foundSegments_oneSegmentEach (hnodup : points.Nodup) (hgrid : ∀ p ∈ points, p.InGrid) :
    OneSegmentEach points (foundSegments points) := by
  have hperm : (sortPoints points).Perm points := List.mergeSort_perm _ _
  obtain ⟨hmem, hsegs⟩ := mem_allSegments (hperm.nodup_iff.2 hnodup) (List.Perm.refl points)
  apply oneSegmentEach hsegs
  intro l
  rw [hmem, hperm.mem_iff]
  exact reported_iff hgrid hnodup

theorem reports_of_le (hnodup : points.Nodup) (hgrid : ∀ p ∈ points, p.InGrid)
    (hle : {S | MaximalCollinear points S}.ncard ≤ 2 ^ 30) : Reports points := by
  have heach := foundSegments_oneSegmentEach hnodup hgrid
  rw [heach.ncard] at hle
  exact ⟨_, foundSegments points, new_ok hnodup hle, segments_eq _ _, rfl, heach⟩

theorem not_reports_of_lt (hnodup : points.Nodup) (hgrid : ∀ p ∈ points, p.InGrid)
    (hlt : 2 ^ 30 < {S | MaximalCollinear points S}.ncard) : ¬ Reports points := by
  rintro ⟨c, segs, hnew, -⟩
  rw [(foundSegments_oneSegmentEach hnodup hgrid).ncard] at hlt
  rw [new_error hnodup hlt] at hnew
  cases hnew

theorem reports_iff (points : List Point) (hnodup : points.Nodup)
    (hgrid : ∀ p ∈ points, p.InGrid) :
    Reports points ↔ {S | MaximalCollinear points S}.ncard ≤ 2 ^ 30 := by
  constructor
  · intro h
    by_contra hle
    exact not_reports_of_lt hnodup hgrid (not_le.1 hle) h
  · exact reports_of_le hnodup hgrid

theorem reports_iff_four_points : Reports [⟨3, 3⟩, ⟨0, 0⟩, ⟨2, 2⟩, ⟨1, 1⟩] := by
  have hgrid : ∀ p ∈ ([⟨3, 3⟩, ⟨0, 0⟩, ⟨2, 2⟩, ⟨1, 1⟩] : List Point), p.InGrid := by
    simp [Point.InGrid]
  apply (reports_iff _ (by decide) hgrid).2
  have hle := Set.ncard_le_ncard
    (maximalCollinear_subset [⟨3, 3⟩, ⟨0, 0⟩, ⟨2, 2⟩, ⟨1, 1⟩]) (Finset.finite_toSet _)
  rw [Set.ncard_coe_finset, Finset.card_powerset] at hle
  exact hle.trans (Nat.pow_le_pow_right (by norm_num) (List.toFinset_card_le _ |>.trans (by simp)))

/-! ## Too many lines -/

/-- The points with `m` values of `x` and `n` values of `y`. -/
def rectangle (m n : ℕ) : List Point :=
  (List.range m ×ˢ List.range n).map fun c => ⟨c.1, c.2⟩

variable {m n x b i : ℕ} {p : Point}

theorem mem_rectangle : p ∈ rectangle m n ↔ (0 ≤ p.x ∧ p.x < m) ∧ 0 ≤ p.y ∧ p.y < n := by
  rw [rectangle, List.mem_map]
  constructor
  · rintro ⟨c, hc, rfl⟩
    obtain ⟨hx, hy⟩ := List.mem_product.1 hc
    rw [List.mem_range] at hx hy
    simp [hx, hy]
  · rintro ⟨⟨hx, hxm⟩, hy, hyn⟩
    refine ⟨(p.x.toNat, p.y.toNat), List.mem_product.2 ⟨?_, ?_⟩, ?_⟩
    · rw [List.mem_range]
      omega
    · rw [List.mem_range]
      omega
    · rw [Int.toNat_of_nonneg hx, Int.toNat_of_nonneg hy]

theorem nodup_rectangle (m n : ℕ) : (rectangle m n).Nodup := by
  apply List.Nodup.map _ (List.nodup_range.product List.nodup_range)
  intro c d h
  simpa [Prod.ext_iff] using h

/-- The line that goes `b` columns to the right with each row, from column `x` of row `i` on. -/
def slanted (m n b x i : ℕ) : Finset Point :=
  lineThrough (rectangle m n) ⟨x, i⟩ ⟨x + b, i + 1⟩

theorem mem_slanted :
    p ∈ slanted m n b x i ↔ p ∈ rectangle m n ∧ p.x = x + b * (p.y - i) := by
  rw [slanted, mem_lineThrough, Point.cross]
  refine and_congr_right fun _ => ?_
  constructor
  · intro h
    linarith
  · intro h
    rw [h]
    ring

theorem maximal_slanted (hx : x + 3 * b < m) (hi : i + 3 < n) :
    MaximalCollinear (rectangle m n) (slanted m n b x i) := by
  have hpoint : ∀ k ∈ Finset.range 4, (⟨x + b * k, i + k⟩ : Point) ∈ slanted m n b x i := by
    intro k hk
    have hk : k ≤ 3 := by simpa [Nat.lt_succ_iff] using hk
    have hbk : b * k ≤ b * 3 := Nat.mul_le_mul_left b hk
    rw [mem_slanted, mem_rectangle]
    zify at hx hi hk hbk
    refine ⟨⟨⟨by positivity, by linarith⟩, by positivity, by linarith⟩, by simp⟩
  have hcard : 4 ≤ (slanted m n b x i).card := by
    rw [← Finset.card_range 4]
    apply Finset.card_le_card_of_injOn (fun k : ℕ => (⟨x + b * k, i + k⟩ : Point))
    · exact fun k hk => Finset.mem_coe.2 (hpoint k (Finset.mem_coe.1 hk))
    · intro k _ k' _ h
      simpa using congrArg Point.y h
  apply maximal_lineThrough _ _ _ hcard
  · simpa using (mem_slanted.1 (hpoint 0 (by simp))).1
  · simpa using (mem_slanted.1 (hpoint 1 (by simp))).1
  · simp [Point.eq_iff]

/-- Before column `x < b` there is no point on the line. -/
theorem isLeast_slanted (hxb : x < b) (hx : x < m) (hi : i < n) :
    IsLeast (slanted m n b x i : Set Point) ⟨x, i⟩ := by
  constructor
  · rw [Finset.mem_coe, mem_slanted, mem_rectangle]
    simp [hx, hi]
  · intro p hp
    obtain ⟨hp, hline⟩ := mem_slanted.1 (Finset.mem_coe.1 hp)
    obtain ⟨⟨hpx, -⟩, -⟩ := mem_rectangle.1 hp
    rw [← not_lt, Point.lt_iff]
    rintro (hlt | ⟨heq, hlt⟩)
    · have hlt : p.y < i := hlt
      have hback : (b : ℤ) * (p.y - i) ≤ b * (-1) :=
        mul_le_mul_of_nonneg_left (by omega) (by positivity)
      omega
    · have heq : p.y = i := heq
      have hlt : p.x < x := hlt
      rw [heq, sub_self, mul_zero, add_zero] at hline
      omega

theorem slanted_injective {b' x' i' : ℕ} (hxb : x < b) (hxb' : x' < b') (hx : x + 3 * b < m)
    (hx' : x' + 3 * b' < m) (hi : i + 3 < n) (hi' : i' + 3 < n)
    (h : slanted m n b x i = slanted m n b' x' i') : b = b' ∧ x = x' ∧ i = i' := by
  have hleast := isLeast_slanted (m := m) (n := n) hxb (by omega) (by omega : i < n)
  have hleast' := isLeast_slanted (m := m) (n := n) hxb' (by omega) (by omega : i' < n)
  rw [h] at hleast
  obtain ⟨hx, hi⟩ := Point.mk.inj (hleast.unique hleast')
  have hx : x = x' := Int.ofNat_inj.1 hx
  have hi : i = i' := Int.ofNat_inj.1 hi
  have hnext : (⟨x + b, i + 1⟩ : Point) ∈ slanted m n b x i := by
    rw [mem_slanted, mem_rectangle]
    simp
    omega
  rw [h, mem_slanted] at hnext
  exact ⟨by simpa [hx, hi] using hnext.2, hx, hi⟩

/-- The lines with `d ≤ b < 2 * d` that start before column `d`. -/
theorem le_ncard_rectangle (d r : ℕ) :
    d * (d * r) ≤ {S | MaximalCollinear (rectangle (7 * d) (r + 3)) S}.ncard := by
  have hinj : Set.InjOn (fun c : ℕ × ℕ × ℕ => slanted (7 * d) (r + 3) (d + c.1) c.2.1 c.2.2)
      (Finset.range d ×ˢ Finset.range d ×ˢ Finset.range r : Finset (ℕ × ℕ × ℕ)) := by
    rintro ⟨b, x, i⟩ hc ⟨b', x', i'⟩ hc' h
    simp only [Finset.coe_product, Set.mem_prod, Finset.mem_coe, Finset.mem_range] at hc hc'
    have h : slanted (7 * d) (r + 3) (d + b) x i = slanted (7 * d) (r + 3) (d + b') x' i' := h
    obtain ⟨hb, rfl, rfl⟩ := slanted_injective (by omega) (by omega) (by omega) (by omega)
      (by omega) (by omega) h
    rw [Nat.add_left_cancel hb]
  have hcard := Finset.card_image_of_injOn hinj
  rw [Finset.card_product, Finset.card_product, Finset.card_range, Finset.card_range] at hcard
  rw [← hcard, ← Set.ncard_coe_finset]
  apply Set.ncard_le_ncard _ ((Finset.finite_toSet _).subset (maximalCollinear_subset _))
  rw [Finset.coe_image, Set.image_subset_iff]
  rintro ⟨b, x, i⟩ hc
  simp only [Finset.coe_product, Set.mem_prod, Finset.mem_coe, Finset.mem_range] at hc
  have hmaximal : MaximalCollinear (rectangle (7 * d) (r + 3))
      (slanted (7 * d) (r + 3) (d + b) x i) := maximal_slanted (by omega) (by omega)
  exact hmaximal

theorem reports_overflows :
    ¬ ∀ points : List Point, points.Nodup → (∀ p ∈ points, p.InGrid) → Reports points := by
  intro h
  have hnodup := nodup_rectangle (7 * 4096) (65 + 3)
  have hgrid : ∀ p ∈ rectangle (7 * 4096) (65 + 3), p.InGrid := by
    intro p hp
    obtain ⟨hx, hy⟩ := mem_rectangle.1 hp
    constructor
    · omega
    · omega
  have hmany : 2 ^ 30 < 4096 * (4096 * 65) := by norm_num
  exact not_reports_of_lt hnodup hgrid (hmany.trans_le (le_ncard_rectangle 4096 65))
    (h _ hnodup hgrid)

end Courses.Collinear
