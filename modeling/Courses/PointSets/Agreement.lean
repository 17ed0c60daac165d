import Courses.PointSets.KdTree

/-!
# The tree answers as the set does

Both classes hold the same points after the same insertions. A range search
leaves out a subtree only when its rectangle is disjoint from the query, and a
nearest search only when the whole rectangle is beyond the best distance, so
neither loses a point that a look at all points would find.
-/

namespace Courses.PointSets

theorem mem_insert_of_contains {points : PointTreeSet} {rect : RectHV} {p q : Point2D} :
    q ∈ (if rect.contains p then points.insert p else points) ↔
      q ∈ points ∨ q = p ∧ rect.contains q = true := by
  split
  · rw [Std.TreeSet.mem_insert, Std.LawfulEqCmp.compare_eq_iff_eq]
    grind
  · grind

namespace KdNode

variable {nd left right : KdNode} {p q point target : Point2D} {turn : Fin 2} {b : Bounds}
  {rect : RectHV}

theorem search_node_left (hne : point ≠ p) (hlt : coord turn p < coord turn point) :
    (node point left right rect).search p turn = left.search p (1 - turn) := by
  rw [search, if_neg hne]
  by_cases hturn : turn = 0
  · have hx : p.x < point.x := by simpa [coord, hturn] using hlt
    simp [hturn, hx]
  · have hy : p.y < point.y := by simpa [coord, hturn] using hlt
    simp [hturn, hy]

theorem search_node_right (hne : point ≠ p) (hle : coord turn point ≤ coord turn p) :
    (node point left right rect).search p turn = right.search p (1 - turn) := by
  rw [search, if_neg hne]
  by_cases hturn : turn = 0
  · have hx : ¬p.x < point.x := by simpa [coord, hturn] using hle
    simp [hturn, hx]
  · have hy : ¬p.y < point.y := by simpa [coord, hturn] using hle
    simp [hturn, hy]

/-- A search finds exactly the points of the subtree. -/
theorem Fits.search_iff (h : nd.Fits turn b) : nd.search p turn = true ↔ p ∈ nd.points := by
  induction h with
  | null => simp [search, points]
  | @node point left right rect turn b inside bounds lower upper fitsLeft fitsRight
      ihLeft ihRight =>
    have hnode : (KdNode.node point left right rect).Fits turn b :=
      .node inside bounds lower upper fitsLeft fitsRight
    by_cases hne : point = p
    · simp [search, points, hne]
    obtain hlt | hle := lt_or_ge (coord turn p) (coord turn point)
    · rw [search_node_left hne hlt, ihLeft, hnode.mem_iff_left hne hlt]
    · rw [search_node_right hne hle, ihRight, hnode.mem_iff_right hne hle]

/-- A node's rectangle holds every point of its subtree. -/
theorem Fits.rect_contains (h : (KdNode.node point left right rect).Fits turn b)
    (hq : q ∈ (KdNode.node point left right rect).points) : rect.contains q = true := by
  have hbounds : rect.bounds = b := by
    cases h with
    | node _ bounds _ _ _ _ => exact bounds
  rw [RectHV.contains_iff_bounds, hbounds]
  exact h.contains_of_mem hq

/-- A range search adds exactly the points of the subtree that lie in the query. -/
theorem Fits.mem_collect (h : nd.Fits turn b) (found : PointTreeSet) (query : RectHV) :
    q ∈ collect found nd query ↔ q ∈ found ∨ q ∈ nd.points ∧ query.contains q = true := by
  induction h generalizing found with
  | null => simp [collect, points]
  | @node point left right rect turn b inside bounds lower upper fitsLeft fitsRight
      ihLeft ihRight =>
    have hnode : (KdNode.node point left right rect).Fits turn b :=
      .node inside bounds lower upper fitsLeft fitsRight
    unfold collect
    by_cases hdisjoint : rect.intersects query = true
    · rw [hdisjoint, Bool.not_true, if_neg Bool.false_ne_true, ihRight, ihLeft,
        mem_points_node, mem_insert_of_contains]
      tauto
    · rw [Bool.not_eq_true] at hdisjoint
      have hnone : ¬(q ∈ (KdNode.node point left right rect).points ∧ query.contains q = true) := by
        intro hq
        rw [RectHV.intersects_of_contains (hnode.rect_contains hq.1) hq.2] at hdisjoint
        exact Bool.false_ne_true hdisjoint.symm
      simp [hdisjoint, hnone]

end KdNode

/-- What a search for the point nearest to `target` finds among `ps`. -/
abbrev FindsNearest (target : Point2D) (ps : List Point2D) : ℚ → Option Point2D → Prop :=
  Nearest.Finds (fun p => p.distanceSquaredTo target) {q | q ∈ ps}

theorem FindsNearest.of_mem_iff {target : Point2D} {ps ps' : List Point2D} {bound : ℚ}
    {r : Option Point2D} (h : FindsNearest target ps bound r) (hmem : ∀ q, q ∈ ps ↔ q ∈ ps') :
    FindsNearest target ps' bound r := by
  have hset : {q | q ∈ ps} = {q | q ∈ ps'} := Set.ext hmem
  unfold FindsNearest
  exact hset ▸ h

namespace KdNode

variable {nd left right : KdNode} {point target : Point2D} {turn : Fin 2} {b : Bounds}
  {rect : RectHV}

/-- Both orders of looking at the node and its subtrees see all their points. -/
theorem findsNearest_node {first second : KdNode} {curDist : ℚ}
    (hpoints : ∀ q, q ∈ (node point left right rect).points ↔
      q = point ∨ q ∈ first.points ∨ q ∈ second.points)
    (hfirst : ∀ curDist, FindsNearest target first.points curDist
      (first.find curDist target (1 - turn)))
    (hsecond : ∀ curDist, FindsNearest target second.points curDist
      (second.find curDist target (1 - turn))) :
    FindsNearest target (node point left right rect).points curDist
      (let cur := closer target (none, curDist) (some point)
      let cur := closer target cur (first.find cur.2 target (1 - turn))
      (closer target cur (second.find cur.2 target (1 - turn))).1) := by
  have hstart : Nearest.Best (fun p : Point2D => p.distanceSquaredTo target) ∅ curDist (none, curDist) :=
    Nearest.best_start
  have hbest := ((hstart.see point).take (hfirst _)).take (hsecond _)
  refine (hbest.congr ?_).finds
  ext q
  simp [hpoints, or_assoc]

/-- The search skips a subtree only when none of its points is nearer. -/
theorem Fits.find (h : nd.Fits turn b) (target : Point2D) (curDist : ℚ) :
    FindsNearest target nd.points curDist (nd.find curDist target turn) := by
  induction h generalizing curDist with
  | null => simp [Nearest.Finds, KdNode.find, points]
  | @node point left right rect turn b inside bounds lower upper fitsLeft fitsRight
      ihLeft ihRight =>
    have hnode : (KdNode.node point left right rect).Fits turn b :=
      .node inside bounds lower upper fitsLeft fitsRight
    rw [KdNode.find]
    by_cases hfar : rect.distanceSquaredTo target > curDist
    · rw [if_pos hfar]
      intro q hq
      exact hfar.le.trans (RectHV.distanceSquaredTo_le (hnode.rect_contains hq))
    rw [if_neg hfar]
    split
    · exact findsNearest_node (fun q => mem_points_node) ihLeft ihRight
    · exact findsNearest_node (fun q => mem_points_node.trans (by tauto)) ihRight ihLeft

end KdNode

/-- The tree and the set hold the same points of the unit square. -/
structure Agrees (t : KdTree) (s : PointSET) : Prop where
  fits : t.root.Fits 0 Bounds.unitSquare
  mem : ∀ q, q ∈ t.root.points ↔ q ∈ s.points
  size : t.sz = s.points.size

namespace Agrees

variable {t : KdTree} {s : PointSET} {p q : Point2D}

theorem new : Agrees KdTree.new PointSET.new :=
  ⟨.null, by simp [KdTree.new, PointSET.new, KdNode.points], rfl⟩

theorem insert (h : Agrees t s) (hp : p.InUnitSquare) :
    ∃ t', t.insert p = some t' ∧ Agrees t' (s.insert p) := by
  obtain ⟨⟨root, sz⟩, hput, hfits, hmem, hsize⟩ :=
    h.fits.putIn (Bounds.contains_unitSquare.mpr hp) t.sz
  have hinsert : t.insert p = some ⟨sz, root⟩ := by
    unfold KdTree.insert
    rw [show t.root.put p 0 0 0 1 1 t.sz = some (root, sz) from hput]
    rfl
  refine ⟨_, hinsert, hfits, fun q => ?_, ?_⟩
  · rw [hmem, h.mem, PointSET.insert, Std.TreeSet.mem_insert,
      Std.LawfulEqCmp.compare_eq_iff_eq, eq_comm]
  · rw [PointSET.insert, Std.TreeSet.size_insert]
    simpa only [h.mem, h.size, Std.TreeSet.contains_iff_mem] using hsize

theorem insertAll {ps : List Point2D} (hps : ∀ p ∈ ps, p.InUnitSquare) (h : Agrees t s) :
    ∃ t', ps.foldlM KdTree.insert t = some t' ∧ Agrees t' (ps.foldl PointSET.insert s) := by
  induction ps generalizing t s with
  | nil => exact ⟨t, rfl, h⟩
  | cons p ps ih =>
    obtain ⟨t₁, hp, h₁⟩ := h.insert (hps p List.mem_cons_self)
    obtain ⟨t', hrest, h'⟩ := ih (fun q hq => hps q (List.mem_cons_of_mem _ hq)) h₁
    have hall : (p :: ps).foldlM KdTree.insert t = some t' := by
      rw [List.foldlM_cons, hp]
      exact hrest
    exact ⟨t', hall, h'⟩

theorem isEmpty_eq (h : Agrees t s) : t.isEmpty = s.isEmpty := by
  rw [KdTree.isEmpty, PointSET.isEmpty, Std.TreeSet.isEmpty_eq_size_eq_zero, h.size]

theorem contains_eq (h : Agrees t s) (p : Point2D) : t.contains p = s.contains p := by
  rw [Bool.eq_iff_iff, KdTree.contains, h.fits.search_iff, h.mem, PointSET.contains,
    Std.TreeSet.contains_iff_mem]

end Agrees

namespace PointSET

variable {s : PointSET} {q : Point2D}

/-- The loop of `range` over the rest of the points. -/
theorem mem_rangeLoop (rect : RectHV) (ps : List Point2D) (part : PointTreeSet) :
    q ∈ ps.foldl (fun part p => if rect.contains p then part.insert p else part) part ↔
      q ∈ part ∨ q ∈ ps ∧ rect.contains q = true := by
  induction ps generalizing part with
  | nil => simp
  | cons p ps ih =>
    rw [List.foldl_cons, ih, mem_insert_of_contains, List.mem_cons]
    tauto

theorem mem_range (rect : RectHV) :
    q ∈ s.range rect ↔ q ∈ s.points ∧ rect.contains q = true := by
  rw [range, Std.TreeSet.foldl_eq_foldl_toList, mem_rangeLoop, Std.TreeSet.mem_toList]
  simp

theorem findsNearest (s : PointSET) (target : Point2D) :
    FindsNearest target s.points.toList maxValueSquared (s.nearest target) := by
  rw [nearest, Std.TreeSet.foldl_eq_foldl_toList]
  exact (Nearest.best_foldl s.points.toList maxValueSquared).finds

end PointSET

namespace Agrees

variable {t : KdTree} {s : PointSET} {p q : Point2D}

theorem mem_range_iff (h : Agrees t s) (rect : RectHV) :
    q ∈ t.range rect ↔ q ∈ s.range rect := by
  rw [KdTree.range, h.fits.mem_collect, PointSET.mem_range, h.mem]
  simp

theorem findsNearest (h : Agrees t s) (target : Point2D) :
    FindsNearest target s.points.toList maxValueSquared (t.nearest target) := by
  have hmem : ∀ q, q ∈ t.root.points ↔ q ∈ s.points.toList := fun q => by
    rw [h.mem, Std.TreeSet.mem_toList]
  exact (h.fits.find target maxValueSquared).of_mem_iff hmem

end Agrees

/-- Both start their search beyond every distance in the unit square. -/
theorem two_lt_maxValueSquared : 2 < maxValueSquared := by
  have hpow : (2 : ℚ) ^ 1024 = 2 ^ 971 * 2 ^ 53 := by rw [← pow_add]
  have hone : (1 : ℚ) ≤ 2 ^ 971 := one_le_pow₀ one_le_two
  unfold maxValueSquared
  rw [hpow]
  generalize (2 : ℚ) ^ 971 = m at hone
  nlinarith

/-- The points a set holds after a sequence of insertions. -/
theorem mem_insertAll {ps : List Point2D} {q : Point2D} :
    q ∈ (PointSET.insertAll ps).points ↔ q ∈ ps := by
  have hloop : ∀ (s : PointSET), q ∈ (ps.foldl PointSET.insert s).points ↔
      q ∈ s.points ∨ q ∈ ps := by
    induction ps with
    | nil => simp
    | cons p ps ih =>
      intro s
      rw [List.foldl_cons, ih, PointSET.insert, Std.TreeSet.mem_insert,
        Std.LawfulEqCmp.compare_eq_iff_eq, List.mem_cons]
      grind
  rw [PointSET.insertAll, hloop]
  simp [PointSET.new]

/-- The answers to a nearest query that agree: at the same distance, which no
inserted point undercuts, and `none` on both sides when nothing was inserted. -/
def SameNearest (ps : List Point2D) (p : Point2D) (r r' : Option Point2D) : Prop :=
  (ps = [] → r = none ∧ r' = none) ∧
  (ps ≠ [] → ∃ q q', r = some q ∧ r' = some q' ∧ q ∈ ps ∧ q' ∈ ps ∧
    q.distanceSquaredTo p = q'.distanceSquaredTo p ∧
    ∀ x ∈ ps, q.distanceSquaredTo p ≤ x.distanceSquaredTo p)

theorem sameNearest_of_findsNearest {ps : List Point2D} {p : Point2D} {r r' : Option Point2D}
    (hps : ∀ q ∈ ps, q.InUnitSquare) (hp : p.InUnitSquare)
    (hr : FindsNearest p ps maxValueSquared r) (hr' : FindsNearest p ps maxValueSquared r') :
    SameNearest ps p r r' := by
  constructor
  · rintro rfl
    exact ⟨hr.eq_none (by simp), hr'.eq_none (by simp)⟩
  · intro hne
    obtain ⟨x, hx⟩ := List.exists_mem_of_ne_nil ps hne
    have hlt : x.distanceSquaredTo p < maxValueSquared :=
      (Point2D.distanceSquaredTo_le_two (hps x hx) hp).trans_lt two_lt_maxValueSquared
    obtain ⟨q, hq, hmem, hmin⟩ := hr.exists_nearest hx hlt
    obtain ⟨q', hq', hmem', hmin'⟩ := hr'.exists_nearest hx hlt
    exact ⟨q, q', hq, hq', hmem, hmem', le_antisymm (hmin q' hmem') (hmin' q hmem), hmin⟩

/-- After any insertions of points of the unit square the tree and the set
have the same size, contain the same points, and answer every range and
nearest query alike. -/
theorem kdTree_agrees (ps : List Point2D) (hps : ∀ p ∈ ps, p.InUnitSquare) :
    ∃ t, KdTree.insertAll ps = some t ∧
      t.size = (PointSET.insertAll ps).size ∧
      (∀ p, t.contains p = (PointSET.insertAll ps).contains p) ∧
      (∀ rect : RectHV, rect.InUnitSquare →
        ∀ q, q ∈ t.range rect ↔ q ∈ (PointSET.insertAll ps).range rect) ∧
      (∀ p, p.InUnitSquare →
        SameNearest ps p (t.nearest p) ((PointSET.insertAll ps).nearest p)) := by
  obtain ⟨t, ht, h⟩ := Agrees.new.insertAll hps
  refine ⟨t, ht, h.size, h.contains_eq, fun rect _ q => h.mem_range_iff rect, fun p hp => ?_⟩
  have hmem : ∀ q, q ∈ (PointSET.insertAll ps).points.toList ↔ q ∈ ps := fun q => by
    rw [Std.TreeSet.mem_toList, mem_insertAll]
  exact sameNearest_of_findsNearest hps hp ((h.findsNearest p).of_mem_iff hmem)
    (((PointSET.insertAll ps).findsNearest p).of_mem_iff hmem)

/-- A repeated point, a point on a dividing line and points on the border of the
square are counted alike. -/
theorem kdTree_agrees_ties :
    (∀ p ∈ [⟨1/2, 1/2⟩, ⟨1/2, 1⟩, ⟨1/4, 1/2⟩, ⟨1/2, 1/2⟩, ⟨0, 0⟩], Point2D.InUnitSquare p) ∧
    ∃ t, KdTree.insertAll [⟨1/2, 1/2⟩, ⟨1/2, 1⟩, ⟨1/4, 1/2⟩, ⟨1/2, 1/2⟩, ⟨0, 0⟩] = some t ∧
      t.size = (PointSET.insertAll [⟨1/2, 1/2⟩, ⟨1/2, 1⟩, ⟨1/4, 1/2⟩, ⟨1/2, 1/2⟩, ⟨0, 0⟩]).size := by
  have hps : ∀ p ∈ [⟨1/2, 1/2⟩, ⟨1/2, 1⟩, ⟨1/4, 1/2⟩, ⟨1/2, 1/2⟩, ⟨0, 0⟩],
      Point2D.InUnitSquare p := by
    simp [Point2D.InUnitSquare]
    norm_num
  obtain ⟨t, ht, hsize, _⟩ := kdTree_agrees _ hps
  exact ⟨hps, t, ht, hsize⟩

end Courses.PointSets
