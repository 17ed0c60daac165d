import Courses.Lib.Nearest
import Mathlib.Tactic

/-!
# Points and rectangles

`Point2D` and `RectHV` of the geometry library, over exact rational
coordinates. Distances are compared as squared distances. Points are ordered
by their y-coordinate and then by their x-coordinate, which is the order of
the tree sets that hold them.
-/

namespace Courses.PointSets

structure Point2D where
  x : ℚ
  y : ℚ
deriving DecidableEq, Repr

namespace Point2D

def compareTo (p q : Point2D) : Ordering :=
  if p.y < q.y then .lt
  else if p.y > q.y then .gt
  else if p.x < q.x then .lt
  else if p.x > q.x then .gt
  else .eq

def distanceSquaredTo (p q : Point2D) : ℚ :=
  let dx := p.x - q.x
  let dy := p.y - q.y
  dx * dx + dy * dy

/-- The region that a k-d tree divides. -/
def InUnitSquare (p : Point2D) : Prop :=
  0 ≤ p.x ∧ p.x ≤ 1 ∧ 0 ≤ p.y ∧ p.y ≤ 1

theorem compareTo_eq_compareLex :
    compareTo = compareLex (compareOn Point2D.y) (compareOn Point2D.x) := by
  funext p q
  unfold compareTo compareLex compareOn
  obtain hy | hy | hy := lt_trichotomy p.y q.y
  · simp [compare_lt_iff_lt.mpr hy, hy]
  · rw [compare_eq_iff_eq.mpr hy, if_neg hy.not_lt, if_neg hy.not_gt]
    obtain hx | hx | hx := lt_trichotomy p.x q.x
    · simp [compare_lt_iff_lt.mpr hx, hx]
    · simp [hx]
    · simp [compare_gt_iff_gt.mpr hx, hx, hx.le.not_gt]
  · simp [compare_gt_iff_gt.mpr hy, hy, hy.le.not_gt]

instance : Std.TransCmp compareTo := by
  rw [compareTo_eq_compareLex]
  infer_instance

instance : Std.LawfulEqCmp compareTo where
  compare_self {p} := by simp [compareTo]
  eq_of_compare {p q} h := by
    rw [compareTo_eq_compareLex, compareLex, Ordering.then_eq_eq] at h
    have hy : p.y = q.y := compare_eq_iff_eq.mp h.1
    have hx : p.x = q.x := compare_eq_iff_eq.mp h.2
    cases p
    cases q
    simp_all

/-- Two points of the unit square are at most a diagonal apart. -/
theorem distanceSquaredTo_le_two {p q : Point2D} (hp : p.InUnitSquare)
    (hq : q.InUnitSquare) : p.distanceSquaredTo q ≤ 2 := by
  obtain ⟨hx0, hx1, hy0, hy1⟩ := hp
  obtain ⟨hx0', hx1', hy0', hy1'⟩ := hq
  have hx : (p.x - q.x) * (p.x - q.x) ≤ 1 := by nlinarith
  have hy : (p.y - q.y) * (p.y - q.y) ≤ 1 := by nlinarith
  unfold distanceSquaredTo
  linarith

end Point2D

/-- An axis-parallel rectangle, as its constructor admits it. -/
structure RectHV where
  xmin : ℚ
  ymin : ℚ
  xmax : ℚ
  ymax : ℚ
  xmin_le : xmin ≤ xmax
  ymin_le : ymin ≤ ymax

namespace RectHV

/-- The constructor; `none` is the exception for an invalid rectangle. -/
def new (xmin ymin xmax ymax : ℚ) : Option RectHV :=
  if h : xmax < xmin ∨ ymax < ymin then none
  else some ⟨xmin, ymin, xmax, ymax, not_lt.mp fun hx => h (Or.inl hx),
    not_lt.mp fun hy => h (Or.inr hy)⟩

def intersects (this that : RectHV) : Bool :=
  this.xmax ≥ that.xmin && this.ymax ≥ that.ymin
    && that.xmax ≥ this.xmin && that.ymax ≥ this.ymin

def contains (r : RectHV) (p : Point2D) : Bool :=
  p.x ≥ r.xmin && p.x ≤ r.xmax && p.y ≥ r.ymin && p.y ≤ r.ymax

def distanceSquaredTo (r : RectHV) (p : Point2D) : ℚ :=
  let dx := if p.x < r.xmin then p.x - r.xmin else if p.x > r.xmax then p.x - r.xmax else 0
  let dy := if p.y < r.ymin then p.y - r.ymin else if p.y > r.ymax then p.y - r.ymax else 0
  dx * dx + dy * dy

def InUnitSquare (r : RectHV) : Prop :=
  0 ≤ r.xmin ∧ r.xmax ≤ 1 ∧ 0 ≤ r.ymin ∧ r.ymax ≤ 1

theorem contains_iff {r : RectHV} {p : Point2D} :
    r.contains p = true ↔ (r.xmin ≤ p.x ∧ p.x ≤ r.xmax) ∧ r.ymin ≤ p.y ∧ p.y ≤ r.ymax := by
  simp [contains, and_assoc]

/-- Rectangles that share a point intersect. -/
theorem intersects_of_contains {r s : RectHV} {p : Point2D} (hr : r.contains p = true)
    (hs : s.contains p = true) : r.intersects s = true := by
  obtain ⟨⟨hxr, hxr'⟩, hyr, hyr'⟩ := contains_iff.mp hr
  obtain ⟨⟨hxs, hxs'⟩, hys, hys'⟩ := contains_iff.mp hs
  simp only [intersects, ge_iff_le, Bool.and_eq_true, decide_eq_true_eq]
  exact ⟨⟨⟨hxs.trans hxr', hys.trans hyr'⟩, hxr.trans hxs'⟩, hyr.trans hys'⟩

/-- How far `t` lies outside an interval is no more than its distance to a
value of the interval. -/
theorem sq_outside_le {lo hi t u : ℚ} (hlo : lo ≤ u) (hhi : u ≤ hi) :
    (if t < lo then t - lo else if t > hi then t - hi else 0) *
      (if t < lo then t - lo else if t > hi then t - hi else 0) ≤ (u - t) * (u - t) := by
  split_ifs with h h'
  · nlinarith
  · nlinarith
  · nlinarith [mul_self_nonneg (u - t)]

/-- A rectangle is no farther than any point in it. -/
theorem distanceSquaredTo_le {r : RectHV} {p t : Point2D} (hp : r.contains p = true) :
    r.distanceSquaredTo t ≤ p.distanceSquaredTo t := by
  obtain ⟨⟨hx, hx'⟩, hy, hy'⟩ := contains_iff.mp hp
  exact add_le_add (sq_outside_le hx hx') (sq_outside_le hy hy')

end RectHV

end Courses.PointSets

/-!
# k-d trees and point sets

`KdTree` divides the unit square by the points it holds, alternating between
vertical and horizontal lines, and every node keeps the rectangle it divides.
`PointSET` keeps its points in one tree set and looks at all of them. The
exception of `RectHV`'s constructor is the result `none` of an insertion.
-/

namespace Courses.PointSets

/-- The turns are counted modulo 2. -/
scoped instance neZeroTurns : NeZero 2 := ⟨two_ne_zero⟩

/-- `TreeSet<Point2D>`, ordered by `compareTo`. -/
abbrev PointTreeSet := Std.TreeSet Point2D Point2D.compareTo

/-- `Double.MAX_VALUE`, squared as the distances it is compared with are. -/
def maxValueSquared : ℚ := (2 ^ 1024 - 2 ^ 971) ^ 2

/-- The best point so far and its distance, after one more point was found. -/
def closer (target : Point2D) : Option Point2D × ℚ → Option Point2D → Option Point2D × ℚ :=
  Nearest.improve fun p => p.distanceSquaredTo target

inductive KdNode where
  | null
  | node (point : Point2D) (left right : KdNode) (rect : RectHV)

namespace KdNode

/-- Insert below a node; the second component is the field `sz`. -/
def put : KdNode → Point2D → Fin 2 → ℚ → ℚ → ℚ → ℚ → ℕ → Option (KdNode × ℕ)
  | .null, p, _, xmin, ymin, xmax, ymax, sz =>
      (RectHV.new xmin ymin xmax ymax).map fun rect => (.node p .null .null rect, sz + 1)
  | .node point left right rect, p, turn, xmin, ymin, xmax, ymax, sz =>
      if point = p then some (.node point left right rect, sz)
      else if turn = 0 then
        if p.x < point.x then
          (put left p (1 - turn) xmin ymin (min point.x xmax) ymax sz).map
            fun (nd, sz) => (.node point nd right rect, sz)
        else
          (put right p (1 - turn) (max point.x xmin) ymin xmax ymax sz).map
            fun (nd, sz) => (.node point left nd rect, sz)
      else
        if p.y < point.y then
          (put left p (1 - turn) xmin ymin xmax (min point.y ymax) sz).map
            fun (nd, sz) => (.node point nd right rect, sz)
        else
          (put right p (1 - turn) xmin (max point.y ymin) xmax ymax sz).map
            fun (nd, sz) => (.node point left nd rect, sz)

def search : KdNode → Point2D → Fin 2 → Bool
  | .null, _, _ => false
  | .node point left right _, p, turn =>
      if point = p then true
      else if turn = 0 then
        if p.x < point.x then search left p (1 - turn) else search right p (1 - turn)
      else
        if p.y < point.y then search left p (1 - turn) else search right p (1 - turn)

def collect : PointTreeSet → KdNode → RectHV → PointTreeSet
  | points, .null, _ => points
  | points, .node point left right ndRect, rect =>
      if !ndRect.intersects rect then points
      else
        let points := if rect.contains point then points.insert point else points
        collect (collect points left rect) right rect

def find : KdNode → ℚ → Point2D → Fin 2 → Option Point2D
  | .null, _, _, _ => none
  | .node point left right rect, curDist, target, turn =>
      if rect.distanceSquaredTo target > curDist then none
      else
        let cur := closer target (none, curDist) (some point)
        if (turn = 0 ∧ target.x < point.x) ∨ (turn = 1 ∧ target.y < point.y) then
          let cur := closer target cur (find left cur.2 target (1 - turn))
          (closer target cur (find right cur.2 target (1 - turn))).1
        else
          let cur := closer target cur (find right cur.2 target (1 - turn))
          (closer target cur (find left cur.2 target (1 - turn))).1

end KdNode

structure KdTree where
  sz : ℕ
  root : KdNode

namespace KdTree

def new : KdTree := ⟨0, .null⟩

def isEmpty (t : KdTree) : Bool := t.sz == 0

def size (t : KdTree) : ℕ := t.sz

def insert (t : KdTree) (p : Point2D) : Option KdTree :=
  (t.root.put p 0 0 0 1 1 t.sz).map fun (root, sz) => ⟨sz, root⟩

def contains (t : KdTree) (p : Point2D) : Bool := t.root.search p 0

def range (t : KdTree) (rect : RectHV) : PointTreeSet := KdNode.collect ∅ t.root rect

def nearest (t : KdTree) (p : Point2D) : Option Point2D := t.root.find maxValueSquared p 0

/-- A sequence of insertions into the empty tree. -/
def insertAll (ps : List Point2D) : Option KdTree := ps.foldlM insert new

end KdTree

structure PointSET where
  points : PointTreeSet

namespace PointSET

def new : PointSET := ⟨∅⟩

def isEmpty (s : PointSET) : Bool := s.points.isEmpty

def size (s : PointSET) : ℕ := s.points.size

def insert (s : PointSET) (p : Point2D) : PointSET := ⟨s.points.insert p⟩

def contains (s : PointSET) (p : Point2D) : Bool := s.points.contains p

def range (s : PointSET) (rect : RectHV) : PointTreeSet :=
  s.points.foldl (fun part p => if rect.contains p then part.insert p else part) ∅

def nearest (s : PointSET) (p : Point2D) : Option Point2D :=
  (s.points.foldl (fun cur pt => closer p cur (some pt)) (none, maxValueSquared)).1

/-- A sequence of insertions into the empty set. -/
def insertAll (ps : List Point2D) : PointSET := ps.foldl insert new

end PointSET

end Courses.PointSets

/-!
# What insertion keeps

The bounds that `put` passes down are the part of the unit square that belongs
to a subtree. In a tree that fits its bounds every node's rectangle is exactly
this part, so it holds every point of the subtree, and the points on the two
sides of a node are told apart by the coordinate of the node's turn.
-/

namespace Courses.PointSets

/-- The four limits that `put` passes down. -/
structure Bounds where
  xmin : ℚ
  ymin : ℚ
  xmax : ℚ
  ymax : ℚ

/-- The coordinate that a node of this turn compares. -/
def coord (turn : Fin 2) (p : Point2D) : ℚ := if turn = 0 then p.x else p.y

namespace Bounds

def unitSquare : Bounds := ⟨0, 0, 1, 1⟩

def Contains (b : Bounds) (p : Point2D) : Prop :=
  (b.xmin ≤ p.x ∧ p.x ≤ b.xmax) ∧ b.ymin ≤ p.y ∧ p.y ≤ b.ymax

/-- The bounds of a left subtree. -/
def below (b : Bounds) (turn : Fin 2) (p : Point2D) : Bounds :=
  if turn = 0 then { b with xmax := min p.x b.xmax } else { b with ymax := min p.y b.ymax }

/-- The bounds of a right subtree. -/
def above (b : Bounds) (turn : Fin 2) (p : Point2D) : Bounds :=
  if turn = 0 then { b with xmin := max p.x b.xmin } else { b with ymin := max p.y b.ymin }

variable {b : Bounds} {turn : Fin 2} {p q : Point2D}

theorem contains_below :
    (b.below turn p).Contains q ↔ b.Contains q ∧ coord turn q ≤ coord turn p := by
  unfold below coord
  split <;> simp [Contains] <;> grind

theorem contains_above :
    (b.above turn p).Contains q ↔ b.Contains q ∧ coord turn p ≤ coord turn q := by
  unfold above coord
  split <;> simp [Contains] <;> grind

theorem contains_unitSquare : unitSquare.Contains p ↔ p.InUnitSquare := by
  simp [Contains, unitSquare, Point2D.InUnitSquare, and_assoc]

end Bounds

namespace RectHV

/-- The limits of a rectangle. -/
def bounds (r : RectHV) : Bounds := ⟨r.xmin, r.ymin, r.xmax, r.ymax⟩

theorem contains_iff_bounds {r : RectHV} {p : Point2D} :
    r.contains p = true ↔ r.bounds.Contains p :=
  contains_iff

/-- Bounds that hold a point are those of a rectangle. -/
theorem new_of_contains {b : Bounds} {p : Point2D} (h : b.Contains p) :
    ∃ r, RectHV.new b.xmin b.ymin b.xmax b.ymax = some r ∧ r.bounds = b := by
  have hx : b.xmin ≤ b.xmax := h.1.1.trans h.1.2
  have hy : b.ymin ≤ b.ymax := h.2.1.trans h.2.2
  refine ⟨⟨b.xmin, b.ymin, b.xmax, b.ymax, hx, hy⟩, ?_, rfl⟩
  unfold new
  rw [dif_neg fun h' => h'.elim hx.not_gt hy.not_gt]

end RectHV

namespace KdNode

/-- The points of a subtree, each node before its children. -/
def points : KdNode → List Point2D
  | .null => []
  | .node point left right _ => point :: (left.points ++ right.points)

/-- A subtree that divides the given bounds, starting at the given turn. -/
inductive Fits : KdNode → Fin 2 → Bounds → Prop
  | null {turn b} : Fits .null turn b
  | node {point left right rect turn b} (inside : b.Contains point) (bounds : rect.bounds = b)
      (lower : ∀ q ∈ left.points, coord turn q < coord turn point)
      (upper : ∀ q ∈ right.points, coord turn point ≤ coord turn q ∧ q ≠ point)
      (fitsLeft : Fits left (1 - turn) (b.below turn point))
      (fitsRight : Fits right (1 - turn) (b.above turn point)) :
      Fits (.node point left right rect) turn b

variable {nd left right : KdNode} {p q point : Point2D} {turn : Fin 2} {b : Bounds}
  {rect : RectHV} {sz : ℕ}

theorem mem_points_node :
    q ∈ (node point left right rect).points ↔ q = point ∨ q ∈ left.points ∨ q ∈ right.points := by
  simp [points]

/-- Every point of a subtree lies in the subtree's bounds. -/
theorem Fits.contains_of_mem (h : nd.Fits turn b) (hq : q ∈ nd.points) : b.Contains q := by
  induction h with
  | null => simp [points] at hq
  | node inside _ _ _ _ _ ihLeft ihRight =>
    rcases mem_points_node.mp hq with rfl | hq | hq
    · exact inside
    · exact (Bounds.contains_below.mp (ihLeft hq)).1
    · exact (Bounds.contains_above.mp (ihRight hq)).1

/-- Left of a node lie the points with the smaller coordinate. -/
theorem Fits.mem_iff_left (h : (KdNode.node point left right rect).Fits turn b) (hne : point ≠ q)
    (hlt : coord turn q < coord turn point) :
    q ∈ (KdNode.node point left right rect).points ↔ q ∈ left.points := by
  cases h with
  | node _ _ _ upper _ _ =>
    rw [mem_points_node]
    constructor
    · rintro (hq | hq | hq)
      · exact absurd hq.symm hne
      · exact hq
      · exact absurd hlt (upper q hq).1.not_gt
    · exact fun hq => Or.inr (Or.inl hq)

/-- Right of a node lie the other points. -/
theorem Fits.mem_iff_right (h : (KdNode.node point left right rect).Fits turn b) (hne : point ≠ q)
    (hle : coord turn point ≤ coord turn q) :
    q ∈ (KdNode.node point left right rect).points ↔ q ∈ right.points := by
  cases h with
  | node _ _ lower _ _ _ =>
    rw [mem_points_node]
    constructor
    · rintro (hq | hq | hq)
      · exact absurd hq.symm hne
      · exact absurd (lower q hq) hle.not_gt
      · exact hq
    · exact fun hq => Or.inr (Or.inr hq)

/-- `put` with its four limits taken together. -/
def putIn (nd : KdNode) (p : Point2D) (turn : Fin 2) (b : Bounds) (sz : ℕ) :
    Option (KdNode × ℕ) :=
  put nd p turn b.xmin b.ymin b.xmax b.ymax sz

theorem putIn_node_self :
    putIn (node point left right rect) point turn b sz = some (node point left right rect, sz) := by
  simp [putIn, put]

theorem putIn_node_left (hne : point ≠ p) (hlt : coord turn p < coord turn point) :
    putIn (node point left right rect) p turn b sz =
      (putIn left p (1 - turn) (b.below turn point) sz).map
        fun (nd, sz) => (.node point nd right rect, sz) := by
  unfold putIn
  rw [put, if_neg hne]
  by_cases hturn : turn = 0
  · have hx : p.x < point.x := by simpa [coord, hturn] using hlt
    simp [Bounds.below, hturn, hx]
  · have hy : p.y < point.y := by simpa [coord, hturn] using hlt
    simp [Bounds.below, hturn, hy]

theorem putIn_node_right (hne : point ≠ p) (hle : coord turn point ≤ coord turn p) :
    putIn (node point left right rect) p turn b sz =
      (putIn right p (1 - turn) (b.above turn point) sz).map
        fun (nd, sz) => (.node point left nd rect, sz) := by
  unfold putIn
  rw [put, if_neg hne]
  by_cases hturn : turn = 0
  · have hx : ¬p.x < point.x := by simpa [coord, hturn] using hle
    simp [Bounds.above, hturn, hx]
  · have hy : ¬p.y < point.y := by simpa [coord, hturn] using hle
    simp [Bounds.above, hturn, hy]

/-- What `put` leaves: the tree still fits, it has gained the point, and the
size counts the point once. -/
structure Gains (nd : KdNode) (p : Point2D) (turn : Fin 2) (b : Bounds) (sz : ℕ)
    (res : KdNode × ℕ) : Prop where
  fits : res.1.Fits turn b
  mem : ∀ q, q ∈ res.1.points ↔ q = p ∨ q ∈ nd.points
  size : res.2 = if p ∈ nd.points then sz else sz + 1

/-- Inserting a point of its bounds into a tree that fits never throws. -/
theorem Fits.putIn (h : nd.Fits turn b) (hp : b.Contains p) (sz : ℕ) :
    ∃ res, nd.putIn p turn b sz = some res ∧ Gains nd p turn b sz res := by
  induction h with
  | @null turn b =>
    obtain ⟨r, hr, hbounds⟩ := RectHV.new_of_contains hp
    have hput : KdNode.putIn .null p turn b sz = some (.node p .null .null r, sz + 1) := by
      simp [KdNode.putIn, put, hr]
    have hfits : (KdNode.node p .null .null r).Fits turn b :=
      .node hp hbounds (by simp [points]) (by simp [points]) .null .null
    exact ⟨_, hput, hfits, by simp [points], by simp [points]⟩
  | @node point left right rect turn b inside bounds lower upper fitsLeft fitsRight
      ihLeft ihRight =>
    have hnode : (KdNode.node point left right rect).Fits turn b :=
      .node inside bounds lower upper fitsLeft fitsRight
    by_cases hne : point = p
    · subst hne
      have hmem : point ∈ (KdNode.node point left right rect).points := mem_points_node.mpr (Or.inl rfl)
      refine ⟨_, putIn_node_self, hnode, fun q => ?_, (if_pos hmem).symm⟩
      exact ⟨Or.inr, fun hq => hq.elim (fun hq => hq ▸ hmem) id⟩
    obtain hlt | hle := lt_or_ge (coord turn p) (coord turn point)
    · obtain ⟨⟨nd, sz'⟩, hput, hfits, hmem, hsize⟩ :=
        ihLeft (Bounds.contains_below.mpr ⟨hp, hlt.le⟩)
      refine ⟨_, by rw [putIn_node_left hne hlt, hput]; rfl, ?_, fun q => ?_, ?_⟩
      · refine .node inside bounds (fun q hq => ?_) upper hfits fitsRight
        rcases (hmem q).mp hq with rfl | hq
        · exact hlt
        · exact lower q hq
      · rw [mem_points_node, mem_points_node, hmem, or_assoc, or_left_comm]
      · simp only [hnode.mem_iff_left hne hlt]
        exact hsize
    · obtain ⟨⟨nd, sz'⟩, hput, hfits, hmem, hsize⟩ :=
        ihRight (Bounds.contains_above.mpr ⟨hp, hle⟩)
      refine ⟨_, by rw [putIn_node_right hne hle, hput]; rfl, ?_, fun q => ?_, ?_⟩
      · refine .node inside bounds lower (fun q hq => ?_) fitsLeft hfits
        rcases (hmem q).mp hq with rfl | hq
        · exact ⟨hle, Ne.symm hne⟩
        · exact upper q hq
      · rw [mem_points_node, mem_points_node, hmem, or_left_comm (b := q = p)]
        rw [or_left_comm]
      · simp only [hnode.mem_iff_right hne hle]
        exact hsize

end KdNode

end Courses.PointSets
