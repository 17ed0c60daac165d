import Courses.Collinear.FastCollinearPoints

/-!
# What all bases report

The search inserts the segments of all bases one after the other, whatever order the points are
left in by the sorts before. The array of the segments is doubled when it is full, which there
is no doing at `2 ^ 30` segments.
-/
namespace Courses.Collinear

open Courses.Lib

variable {base : Point} {points pts tosort : List Point} {l : LineSegment}

/-! ## Sorting -/

theorem sortBySlope_perm (base : Point) (tosort : List Point) :
    (sortBySlope base tosort).Perm tosort := List.mergeSort_perm _ _

theorem sortBySlope_sorted (base : Point) (tosort : List Point) :
    (sortBySlope base tosort).Pairwise fun p q => base.slopeTo p ≤ base.slopeTo q := by
  have hsorted : (sortBySlope base tosort).Pairwise
      fun p q => decide (base.slopeOrder p q ≤ 0) = true := by
    apply List.pairwise_mergeSort
    · intro p q r hpq hqr
      simp only [decide_eq_true_eq, Point.slopeOrder_nonpos_iff] at hpq hqr ⊢
      exact hpq.trans hqr
    · intro p q
      simp only [Bool.or_eq_true, decide_eq_true_eq, Point.slopeOrder_nonpos_iff]
      exact le_total _ _
  exact hsorted.imp fun h => Point.slopeOrder_nonpos_iff.1 (of_decide_eq_true h)

/-- In the order of the slopes, the base itself comes first. -/
theorem dropWhile_eq_filter {ps : List Point}
    (h : ps.Pairwise fun p q => base.slopeTo p ≤ base.slopeTo q) :
    ps.dropWhile (fun p => base.slopeTo p = ⊥) = ps.filter fun p => p ≠ base := by
  induction ps with
  | nil => rfl
  | cons p ps ih =>
    obtain ⟨hle, hps⟩ := List.pairwise_cons.1 h
    by_cases hp : p = base
    · have hbot := Point.slopeTo_eq_bot_iff.2 hp
      rw [List.dropWhile_cons_of_pos (by simpa using hbot), ih hps,
        List.filter_cons_of_neg (by simpa using hp)]
    · have hbot : base.slopeTo p ≠ ⊥ := fun h => hp (Point.slopeTo_eq_bot_iff.1 h)
      have hall : ∀ q ∈ p :: ps, decide (q ≠ base) = true := by
        refine List.forall_mem_cons.2 ⟨by simpa using hp, fun q hq => ?_⟩
        have hq : base.slopeTo q ≠ ⊥ := ((bot_lt_iff_ne_bot.2 hbot).trans_le (hle q hq)).ne'
        simpa [Point.slopeTo_eq_bot_iff] using hq
      rw [List.dropWhile_cons_of_neg (by simpa using hbot), List.filter_eq_self.2 hall]

/-! ## One base -/

/-- A base does not see itself in the direction of another point, and the order does not count. -/
theorem reported_filter {ps : List Point} (hperm : ps.Perm points) :
    Reported base (ps.filter fun p => p ≠ base) l ↔ Reported base points l ∧ l.q ≠ base := by
  have hne : ∀ p, l.q ≠ base → base.slopeTo p = base.slopeTo l.q → p ≠ base := by
    rintro p hq hslope rfl
    exact hq (Point.slopeTo_eq_bot_iff.1 (hslope.symm.trans (Point.slopeTo_eq_bot_iff.2 rfl)))
  have hcount : l.q ≠ base →
      (ps.filter fun p => p ≠ base).countP (fun p => base.slopeTo p = base.slopeTo l.q) =
        points.countP fun p => base.slopeTo p = base.slopeTo l.q := by
    intro hq
    rw [List.countP_filter, ← hperm.countP_eq]
    refine List.countP_congr fun p _ => ?_
    simpa using fun hslope => hne p hq hslope
  constructor
  · intro hr
    obtain ⟨hmem, hq⟩ := List.mem_filter.1 hr.right
    have hq : l.q ≠ base := by simpa using hq
    refine ⟨⟨hr.left, hperm.mem_iff.1 hmem, ?_, hcount hq ▸ hr.three⟩, hq⟩
    intro p hp hslope
    exact hr.between p (List.mem_filter.2 ⟨hperm.mem_iff.2 hp, by simpa using hne p hq hslope⟩)
      hslope
  · rintro ⟨hr, hq⟩
    refine ⟨hr.left, List.mem_filter.2 ⟨hperm.mem_iff.2 hr.right, by simpa using hq⟩, ?_,
      (hcount hq).symm ▸ hr.three⟩
    intro p hp hslope
    exact hr.between p (hperm.mem_iff.1 (List.mem_filter.1 hp).1) hslope

/-- The segments that a base reports, with the points sorted. -/
def segmentsOf (base : Point) (tosort : List Point) : List LineSegment :=
  emitted base ⟨0, tosort.headD base, false, ⊥⟩
    (tosort.dropWhile fun p => base.slopeTo p = ⊥)

theorem scanBase_eq (base : Point) (tosort : List Point) (segments : Segments) :
    scanBase base tosort segments = (segmentsOf base tosort).foldlM insertSegment segments :=
  foldlM_scanPoint segments _ _

theorem mem_segmentsOf (base : Point) (hperm : tosort.Perm points) :
    (∀ l, l ∈ segmentsOf base (sortBySlope base tosort) ↔ Reported base points l ∧ l.q ≠ base) ∧
      (segmentsOf base (sortBySlope base tosort)).Nodup := by
  have hsorted := sortBySlope_sorted base tosort
  have hperm := (sortBySlope_perm base tosort).trans hperm
  rw [segmentsOf, dropWhile_eq_filter hsorted]
  have hne : ∀ q ∈ (sortBySlope base tosort).filter (fun p => p ≠ base), q ≠ base := by
    intro q hq
    simpa using (List.mem_filter.1 hq).2
  obtain ⟨hmem, hnodup⟩ := mem_emitted (describes_nil base _) (.inl rfl) hne (hsorted.filter _)
  refine ⟨fun l => ?_, hnodup⟩
  rw [hmem l, List.nil_append, reported_filter hperm]
  simp

/-! ## All bases -/

/-- The segments that the bases report one after the other. -/
def allSegments : List Point → List Point → List LineSegment
  | [], _ => []
  | base :: pts, tosort =>
    segmentsOf base (sortBySlope base tosort) ++ allSegments pts (sortBySlope base tosort)

theorem findFrom_eq (pts tosort : List Point) (segments : Segments) :
    findFrom pts tosort segments = (allSegments pts tosort).foldlM insertSegment segments := by
  induction pts generalizing tosort segments with
  | nil => rfl
  | cons base pts ih =>
    rw [findFrom, allSegments, List.foldlM_append, scanBase_eq]
    exact congrArg _ (funext fun s => ih _ s)

theorem mem_allSegments (hpts : pts.Nodup) (hperm : tosort.Perm points) :
    (∀ l, l ∈ allSegments pts tosort ↔ l.p ∈ pts ∧ Reported l.p points l ∧ l.q ≠ l.p) ∧
      (allSegments pts tosort).Nodup := by
  induction pts generalizing tosort with
  | nil => simp [allSegments]
  | cons base pts ih =>
    obtain ⟨hbase, hpts⟩ := List.nodup_cons.1 hpts
    obtain ⟨hmem, hnodup⟩ := mem_segmentsOf base hperm
    obtain ⟨hmem', hnodup'⟩ := ih hpts ((sortBySlope_perm base tosort).trans hperm)
    constructor
    · intro l
      rw [allSegments, List.mem_append, hmem, hmem', List.mem_cons]
      constructor
      · rintro (⟨hr, hq⟩ | ⟨hp, hr⟩)
        · have hl := hr.left
          subst hl
          exact ⟨.inl rfl, hr, hq⟩
        · exact ⟨.inr hp, hr⟩
      · rintro ⟨rfl | hp, hr⟩
        · exact .inl hr
        · exact .inr ⟨hp, hr⟩
    · refine List.nodup_append.2 ⟨hnodup, hnodup', ?_⟩
      rintro l hl l' hl' rfl
      have hleft := ((hmem l).1 hl).1.left
      exact hbase (hleft ▸ ((hmem' l).1 hl').1)

end Courses.Collinear

/-!
# Maximal sets of collinear points

The points on the line through two of them are a maximal collinear set, and there are no others.
So a base reports the sets that it is the least point of.
-/
namespace Courses.Collinear

open Point

variable {points : List Point} {S T : Finset Point} {b p q u v w : Point} {l : LineSegment}

/-- All points are on one line. -/
def OnLine (S : Finset Point) : Prop := ∀ p ∈ S, ∀ q ∈ S, ∀ r ∈ S, p.cross q r = 0

/-- At least four points on a line, and all points that are on it. -/
structure MaximalCollinear (points : List Point) (S : Finset Point) : Prop where
  subset : S ⊆ points.toFinset
  onLine : OnLine S
  four : 4 ≤ S.card
  maximal : ∀ T ⊆ points.toFinset, OnLine T → S ⊆ T → T = S

/-- The segment from the least to the greatest point. -/
structure EndPoints (S : Finset Point) (l : LineSegment) : Prop where
  least : IsLeast (S : Set Point) l.p
  greatest : IsGreatest (S : Set Point) l.q

/-! ## Lines -/

theorem cross_eq (b u v w : Point) :
    u.cross v w = b.cross v w - b.cross u w + b.cross u v := by
  simp only [cross]
  ring

theorem cross_eq_zero (hq : q ≠ b) (hu : b.cross q u = 0) (hv : b.cross q v = 0) :
    b.cross u v = 0 := by
  simp only [cross] at hu hv ⊢
  by_cases hx : q.x - b.x = 0
  · have hy : q.y - b.y ≠ 0 := fun hy => hq (eq_iff.2 ⟨sub_eq_zero.1 hy, sub_eq_zero.1 hx⟩)
    apply mul_left_cancel₀ hy
    linear_combination (v.y - b.y) * (-hu) + (u.y - b.y) * hv
  · apply mul_left_cancel₀ hx
    linear_combination (-(v.x - b.x)) * hu + (u.x - b.x) * hv

theorem onLine_of_cross (hq : q ≠ b) (h : ∀ p ∈ S, b.cross q p = 0) : OnLine S := by
  intro u hu v hv w hw
  rw [cross_eq b, cross_eq_zero hq (h v hv) (h w hw), cross_eq_zero hq (h u hu) (h w hw),
    cross_eq_zero hq (h u hu) (h v hv)]
  norm_num

/-- The points on the line through two of them. -/
def lineThrough (points : List Point) (b q : Point) : Finset Point :=
  points.toFinset.filter fun p => b.cross q p = 0

theorem mem_lineThrough : p ∈ lineThrough points b q ↔ p ∈ points ∧ b.cross q p = 0 := by
  simp [lineThrough]

@[simp] theorem cross_self_left (b q : Point) : b.cross q b = 0 := by
  simp [cross]

@[simp] theorem cross_self_right (b q : Point) : b.cross q q = 0 := by
  simp only [cross]
  ring

theorem maximal_lineThrough (hb : b ∈ points) (hq : q ∈ points) (hne : q ≠ b)
    (hfour : 4 ≤ (lineThrough points b q).card) :
    MaximalCollinear points (lineThrough points b q) := by
  refine ⟨Finset.filter_subset _ _, ?_, hfour, ?_⟩
  · exact onLine_of_cross hne fun p hp => (mem_lineThrough.1 hp).2
  · intro T hT hline hsubset
    apply Finset.Subset.antisymm _ hsubset
    intro p hp
    have hbT : b ∈ T := hsubset (mem_lineThrough.2 ⟨hb, cross_self_left b q⟩)
    have hqT : q ∈ T := hsubset (mem_lineThrough.2 ⟨hq, cross_self_right b q⟩)
    exact mem_lineThrough.2 ⟨List.mem_toFinset.1 (hT hp), hline b hbT q hqT p hp⟩

theorem MaximalCollinear.eq_lineThrough (h : MaximalCollinear points S) (hb : b ∈ S) (hq : q ∈ S)
    (hne : q ≠ b) : S = lineThrough points b q := by
  symm
  apply h.maximal
  · exact Finset.filter_subset _ _
  · exact onLine_of_cross hne fun p hp => (mem_lineThrough.1 hp).2
  · intro p hp
    exact mem_lineThrough.2 ⟨List.mem_toFinset.1 (h.subset hp), h.onLine b hb q hq p hp⟩

/-! ## End points -/

theorem EndPoints.unique {l' : LineSegment} (h : EndPoints S l) (h' : EndPoints S l') : l = l' := by
  cases l
  cases l'
  exact congrArg₂ LineSegment.mk (h.least.unique h'.least) (h.greatest.unique h'.greatest)

theorem MaximalCollinear.exists_endPoints (h : MaximalCollinear points S) :
    ∃ l, EndPoints S l := by
  have hne : S.Nonempty := Finset.card_pos.1 (by have := h.four; omega)
  exact ⟨⟨S.min' hne, S.max' hne⟩, S.isLeast_min' hne, S.isGreatest_max' hne⟩

theorem MaximalCollinear.left_ne_right (h : MaximalCollinear points S) (hl : EndPoints S l) :
    l.q ≠ l.p := by
  intro heq
  have hone : S ⊆ {l.p} := by
    intro p hp
    have hle := hl.greatest.2 hp
    rw [heq] at hle
    exact Finset.mem_singleton.2 (le_antisymm hle (hl.least.2 hp))
  have hcard := Finset.card_le_card hone
  have hfour := h.four
  rw [Finset.card_singleton] at hcard
  omega

/-- Two maximal sets with the same end points are the same. -/
theorem MaximalCollinear.eq_of_endPoints (hS : MaximalCollinear points S)
    (hT : MaximalCollinear points T) (hl : EndPoints S l) (hl' : EndPoints T l) : S = T := by
  have hne := hS.left_ne_right hl
  rw [hS.eq_lineThrough hl.least.1 hl.greatest.1 hne,
    hT.eq_lineThrough hl'.least.1 hl'.greatest.1 hne]

/-! ## What a base reports -/

section Grid

variable (hgrid : ∀ p ∈ points, p.InGrid)

include hgrid

theorem mem_lineThrough_iff_slope (hb : b ∈ points) (hq : q ∈ points) (hne : q ≠ b)
    (hp : p ∈ points) (hpb : p ≠ b) :
    p ∈ lineThrough points b q ↔ b.slopeTo p = b.slopeTo q := by
  have hcross := slopeTo_eq_iff (hgrid b hb) (hgrid q hq) (hgrid p hp) hne hpb
  rw [mem_lineThrough, ← hcross]
  simp [hp, eq_comm]

theorem card_lineThrough (hnodup : points.Nodup) (hb : b ∈ points) (hq : q ∈ points)
    (hne : q ≠ b) : (lineThrough points b q).card =
      (points.countP fun p => b.slopeTo p = b.slopeTo q) + 1 := by
  have herase : (lineThrough points b q).erase b =
      (points.filter fun p => b.slopeTo p = b.slopeTo q).toFinset := by
    ext p
    rw [Finset.mem_erase, List.mem_toFinset, List.mem_filter]
    constructor
    · rintro ⟨hpb, hp⟩
      have hmem := (mem_lineThrough.1 hp).1
      have hslope := (mem_lineThrough_iff_slope hgrid hb hq hne hmem hpb).1 hp
      exact ⟨hmem, by simpa using hslope⟩
    · rintro ⟨hp, hslope⟩
      have hslope : b.slopeTo p = b.slopeTo q := by simpa using hslope
      have hpb : p ≠ b := by
        rintro rfl
        rw [slopeTo_eq_bot_iff.2 rfl] at hslope
        exact hne (slopeTo_eq_bot_iff.1 hslope.symm)
      exact ⟨hpb, (mem_lineThrough_iff_slope hgrid hb hq hne hp hpb).2 hslope⟩
  have hmem : b ∈ lineThrough points b q := mem_lineThrough.2 ⟨hb, cross_self_left b q⟩
  rw [← Finset.card_erase_add_one hmem, herase, List.toFinset_card_of_nodup (hnodup.filter _),
    List.countP_eq_length_filter]

theorem reported_iff (hnodup : points.Nodup) :
    (l.p ∈ points ∧ Reported l.p points l ∧ l.q ≠ l.p) ↔
      ∃ S, MaximalCollinear points S ∧ EndPoints S l := by
  constructor
  · rintro ⟨hp, hr, hne⟩
    have hcard := card_lineThrough hgrid hnodup hp hr.right hne
    have hthree := hr.three
    refine ⟨lineThrough points l.p l.q, maximal_lineThrough hp hr.right hne (by omega), ?_⟩
    have hbetween : ∀ r ∈ lineThrough points l.p l.q, l.p ≤ r ∧ r ≤ l.q := by
      intro r hmem
      have hr' := (mem_lineThrough.1 hmem).1
      by_cases hrp : r = l.p
      · have hle := hr.between l.q hr.right rfl
        rw [hrp]
        exact ⟨le_rfl, hle.1.le⟩
      · have hslope := (mem_lineThrough_iff_slope hgrid hp hr.right hne hr' hrp).1 hmem
        have hle := hr.between r hr' hslope
        exact ⟨hle.1.le, hle.2⟩
    exact ⟨⟨mem_lineThrough.2 ⟨hp, cross_self_left _ _⟩, fun r hr => (hbetween r hr).1⟩,
      ⟨mem_lineThrough.2 ⟨hr.right, cross_self_right _ _⟩, fun r hr => (hbetween r hr).2⟩⟩
  · rintro ⟨S, hS, hl⟩
    have hne := hS.left_ne_right hl
    have hp : l.p ∈ points := List.mem_toFinset.1 (hS.subset hl.least.1)
    have hq : l.q ∈ points := List.mem_toFinset.1 (hS.subset hl.greatest.1)
    have hline := hS.eq_lineThrough hl.least.1 hl.greatest.1 hne
    have hcard := card_lineThrough hgrid hnodup hp hq hne
    have hfour := hS.four
    rw [hline] at hfour
    refine ⟨hp, ⟨rfl, hq, ?_, by omega⟩, hne⟩
    intro r hr hslope
    have hrp : r ≠ l.p := by
      rintro rfl
      rw [slopeTo_eq_bot_iff.2 rfl] at hslope
      exact hne (slopeTo_eq_bot_iff.1 hslope.symm)
    have hmem : r ∈ S := by
      rw [hline]
      exact (mem_lineThrough_iff_slope hgrid hp hq hne hr hrp).2 hslope
    exact ⟨lt_of_le_of_ne (hl.least.2 hmem) hrp.symm, hl.greatest.2 hmem⟩

end Grid

end Courses.Collinear
