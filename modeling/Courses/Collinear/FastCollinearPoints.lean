import Courses.Lib.JavaArray
import Courses.Lib.Numbers
import Mathlib.Data.Prod.Lex
import Mathlib.Tactic

/-!
# Points of the plane

`Point` compares points by their `y`-coordinates first, and tells the slope of the line from one
point to another. A slope is an exact number here, or one of the infinities.
-/
namespace Courses.Collinear

open Courses.Lib

structure Point where
  x : ℤ
  y : ℤ
  deriving DecidableEq

/-- `⊥` is `Double.NEGATIVE_INFINITY`, and `⊤` is `Double.POSITIVE_INFINITY`. -/
abbrev Slope := WithBot (WithTop ℚ)

namespace Point

def slopeTo (p that : Point) : Slope :=
  if p.x = that.x ∧ p.y = that.y then ⊥
  else if p.y = that.y then ((0 : ℚ) : WithTop ℚ)
  else if p.x = that.x then (⊤ : WithTop ℚ)
  else (((int32 (that.y - p.y) : ℚ) / int32 (that.x - p.x) : ℚ) : WithTop ℚ)

def compareTo (p that : Point) : ℤ :=
  if p.y = that.y ∧ p.x = that.x then 0
  else if p.y < that.y ∨ p.y = that.y ∧ p.x < that.x then -1
  else 1

/-- `slopeOrder().compare` -/
def slopeOrder (p o1 o2 : Point) : ℤ :=
  if p.slopeTo o1 < p.slopeTo o2 then -1
  else if p.slopeTo o2 < p.slopeTo o1 then 1
  else 0

/-! ## The order of points -/

theorem toLex_injective : Function.Injective fun p : Point => toLex (p.y, p.x) := by
  intro p q h
  obtain ⟨hy, hx⟩ := Prod.mk.inj (toLex_inj.1 h)
  cases p
  cases q
  simp_all

instance : LinearOrder Point := LinearOrder.lift' (fun p => toLex (p.y, p.x)) toLex_injective

theorem lt_iff {p q : Point} : p < q ↔ p.y < q.y ∨ p.y = q.y ∧ p.x < q.x := Prod.Lex.toLex_lt_toLex

theorem eq_iff {p q : Point} : p = q ↔ p.y = q.y ∧ p.x = q.x := by
  cases p
  cases q
  simp [and_comm]

theorem compareTo_eq_zero_iff {p q : Point} : p.compareTo q = 0 ↔ p = q := by
  rw [compareTo, eq_iff]
  split_ifs with heq hlt <;> simp [heq]

theorem compareTo_pos_iff {p q : Point} : p.compareTo q > 0 ↔ q < p := by
  rw [compareTo, lt_iff]
  split_ifs with heq hlt
  · omega
  · omega
  · omega

theorem compareTo_nonpos_iff {p q : Point} : p.compareTo q ≤ 0 ↔ p ≤ q := by
  rw [← not_lt, ← not_lt, not_iff_not]
  exact compareTo_pos_iff

/-! ## The order of slopes -/

variable {p q r : Point}

theorem slopeOrder_nonpos_iff : p.slopeOrder q r ≤ 0 ↔ p.slopeTo q ≤ p.slopeTo r := by
  rw [slopeOrder]
  split_ifs with hlt hgt
  · simp [hlt.le]
  · simp [hgt]
  · simp [not_lt.1 hgt]

theorem slopeTo_eq_bot_iff : p.slopeTo q = ⊥ ↔ q = p := by
  rw [slopeTo, eq_iff]
  split_ifs with heq hy hx
  · simp [heq]
  · have hx : ¬ q.x = p.x := fun hx => heq ⟨hx.symm, hy⟩
    simp [hx]
  · have hy : ¬ q.y = p.y := fun h => hy h.symm
    simp [hy]
  · have hy : ¬ q.y = p.y := fun h => hy h.symm
    simp [hy]

/-- Twice the area of the triangle, which is 0 if the points are on a line. -/
def cross (p q r : Point) : ℤ := (q.x - p.x) * (r.y - p.y) - (q.y - p.y) * (r.x - p.x)

/-- The coordinates are between 0 and 32767. -/
def InGrid (p : Point) : Prop := (0 ≤ p.x ∧ p.x ≤ 32767) ∧ 0 ≤ p.y ∧ p.y ≤ 32767

theorem slopeTo_horizontal (hne : q ≠ p) (hy : q.y = p.y) :
    p.slopeTo q = ((0 : ℚ) : WithTop ℚ) := by
  have hx : ¬ (p.x = q.x ∧ p.y = q.y) := fun h => hne (eq_iff.2 ⟨h.2.symm, h.1.symm⟩)
  rw [slopeTo, if_neg hx, if_pos hy.symm]

theorem slopeTo_vertical (hne : q ≠ p) (hx : q.x = p.x) : p.slopeTo q = (⊤ : WithTop ℚ) := by
  have hy : ¬ p.y = q.y := fun hy => hne (eq_iff.2 ⟨hy.symm, hx⟩)
  rw [slopeTo, if_neg fun h => hy h.2, if_neg hy, if_pos hx.symm]

theorem slopeTo_oblique (hp : p.InGrid) (hq : q.InGrid) (hx : q.x ≠ p.x) (hy : q.y ≠ p.y) :
    p.slopeTo q = (((q.y - p.y : ℤ) / (q.x - p.x : ℤ) : ℚ) : WithTop ℚ) := by
  obtain ⟨hpx, hpy⟩ := hp
  obtain ⟨hqx, hqy⟩ := hq
  rw [slopeTo, if_neg fun h => hx h.1.symm, if_neg hy.symm, if_neg hx.symm,
    int32_eq (by omega) (by omega), int32_eq (by omega) (by omega)]

theorem slopeTo_eq_zero_iff (hp : p.InGrid) (hr : r.InGrid) (hne : r ≠ p) :
    p.slopeTo r = ((0 : ℚ) : WithTop ℚ) ↔ r.y = p.y := by
  by_cases hy : r.y = p.y
  · simp [slopeTo_horizontal hne hy, hy]
  · by_cases hx : r.x = p.x
    · rw [slopeTo_vertical hne hx, WithBot.coe_inj]
      exact iff_of_false WithTop.top_ne_coe hy
    · have hdx : ((r.x - p.x : ℤ) : ℚ) ≠ 0 := Int.cast_ne_zero.2 (sub_ne_zero.2 hx)
      have hdy : ((r.y - p.y : ℤ) : ℚ) ≠ 0 := Int.cast_ne_zero.2 (sub_ne_zero.2 hy)
      rw [slopeTo_oblique hp hr hx hy, WithBot.coe_inj, WithTop.coe_inj]
      exact iff_of_false (div_ne_zero hdy hdx) hy

theorem slopeTo_eq_top_iff (hp : p.InGrid) (hr : r.InGrid) (hne : r ≠ p) :
    p.slopeTo r = (⊤ : WithTop ℚ) ↔ r.x = p.x := by
  by_cases hx : r.x = p.x
  · simp [slopeTo_vertical hne hx, hx]
  · by_cases hy : r.y = p.y
    · rw [slopeTo_horizontal hne hy, WithBot.coe_inj]
      exact iff_of_false WithTop.coe_ne_top hx
    · rw [slopeTo_oblique hp hr hx hy, WithBot.coe_inj]
      simp [hx]

/-- Two points are seen in the same direction if the three are on a line. -/
theorem slopeTo_eq_iff (hp : p.InGrid) (hq : q.InGrid) (hr : r.InGrid) (hqp : q ≠ p)
    (hrp : r ≠ p) : p.slopeTo q = p.slopeTo r ↔ p.cross q r = 0 := by
  have hq0 : ¬ (q.y = p.y ∧ q.x = p.x) := fun h => hqp (eq_iff.2 h)
  by_cases hqy : q.y = p.y
  · have hdx : q.x - p.x ≠ 0 := fun h => hq0 ⟨hqy, sub_eq_zero.1 h⟩
    rw [slopeTo_horizontal hqp hqy, eq_comm, slopeTo_eq_zero_iff hp hr hrp, cross, hqy]
    simp [hdx, sub_eq_zero]
  · by_cases hqx : q.x = p.x
    · have hdy : q.y - p.y ≠ 0 := sub_ne_zero.2 hqy
      rw [slopeTo_vertical hqp hqx, eq_comm, slopeTo_eq_top_iff hp hr hrp, cross, hqx]
      simp [hdy, sub_eq_zero]
    · have hdx : ((q.x - p.x : ℤ) : ℚ) ≠ 0 := Int.cast_ne_zero.2 (sub_ne_zero.2 hqx)
      have hdy : q.y - p.y ≠ 0 := sub_ne_zero.2 hqy
      have hr0 : ¬ (r.y = p.y ∧ r.x = p.x) := fun h => hrp (eq_iff.2 h)
      by_cases hry : r.y = p.y
      · have hrx : r.x - p.x ≠ 0 := fun h => hr0 ⟨hry, sub_eq_zero.1 h⟩
        have hzero := slopeTo_eq_zero_iff hp hq hqp
        rw [slopeTo_horizontal hrp hry, hzero, cross, hry]
        simp [hqy, hdy, hrx]
      · by_cases hrx : r.x = p.x
        · have hry' : r.y - p.y ≠ 0 := sub_ne_zero.2 hry
          have htop := slopeTo_eq_top_iff hp hq hqp
          rw [slopeTo_vertical hrp hrx, htop, cross, hrx]
          simp [hqx, hry', sub_eq_zero]
        · have hrx' : ((r.x - p.x : ℤ) : ℚ) ≠ 0 := Int.cast_ne_zero.2 (sub_ne_zero.2 hrx)
          rw [slopeTo_oblique hp hq hqx hqy, slopeTo_oblique hp hr hrx hry, WithBot.coe_inj,
            WithTop.coe_inj, div_eq_div_iff hdx hrx', cross, ← Int.cast_mul, ← Int.cast_mul,
            Int.cast_inj]
          constructor
          · intro h
            linarith
          · intro h
            linarith

end Point

end Courses.Collinear

/-!
# The search for collinear points

`FastCollinearPoints` sorts the points by the slopes they are seen in from each point in turn,
and reports the runs of equal slopes of which that point is the least. The point at `maxind` is
kept in place of the index, as the array does not change while it is used.
-/
namespace Courses.Collinear

open Courses.Lib

structure LineSegment where
  p : Point
  q : Point
  deriving DecidableEq

/-! ## The segments -/

/-- The array that is being filled, and `numSegs`. -/
structure Segments where
  array : Slots LineSegment
  numSegs : ℤ

/-- `new LineSegment[2]` -/
def noSegments : Segments := ⟨[none, none], 0⟩

/-- The array of twice the length if the array is full. -/
def expand (s : Segments) : Except JavaException (Slots LineSegment) :=
  if s.array.length = s.numSegs then do
    let nsegs ← newSlots (int32 (s.array.length * 2))
    copySlots (some s.array) 0 nsegs s.numSegs.toNat
  else .ok s.array

def insertSegment (s : Segments) (lseg : LineSegment) : Except JavaException Segments := do
  let segments ← expand s
  let segments ← putSlot (some segments) s.numSegs (some lseg)
  return ⟨segments, int32 (s.numSegs + 1)⟩

def shrink (s : Segments) : Except JavaException Segments :=
  if s.array.length = s.numSegs then .ok s
  else do
    let nsegs ← newSlots s.numSegs
    return ⟨← copySlots (some s.array) 0 nsegs s.numSegs.toNat, s.numSegs⟩

/-! ## One base -/

/-- What is known of the current run of equal slopes. -/
structure Run where
  cnt : ℕ
  maxPoint : Point
  neglect : Bool
  curSlope : Slope

/-- The segment of a run that is over, if it is reported. -/
def Run.segment (base : Point) (run : Run) : List LineSegment :=
  if !run.neglect && decide (3 ≤ run.cnt) then [⟨base, run.maxPoint⟩] else []

/-- The run that a point is in, which is a new one if the slope changes. -/
def Run.enter (base : Point) (run : Run) (p : Point) : Run :=
  if base.slopeTo p ≠ run.curSlope then ⟨0, p, false, base.slopeTo p⟩ else run

/-- A point of the current run is counted, or the run is neglected. -/
def Run.count (base : Point) (run : Run) (p : Point) : Run :=
  if base.compareTo p > 0 then { run with neglect := true }
  else
    { run with
      cnt := run.cnt + 1
      maxPoint := if p.compareTo run.maxPoint > 0 then p else run.maxPoint }

/-- The body of the loop over the sorted points. -/
def scanPoint (base : Point) (st : Segments × Run) (p : Point) :
    Except JavaException (Segments × Run) := do
  let segments ←
    if base.slopeTo p ≠ st.2.curSlope then (st.2.segment base).foldlM insertSegment st.1
    else .ok st.1
  return (segments, (st.2.enter base p).count base p)

/-- The body of the loop over the bases, with the points sorted. -/
def scanBase (base : Point) (tosort : List Point) (segments : Segments) :
    Except JavaException Segments := do
  let rest := tosort.dropWhile fun p => base.slopeTo p = ⊥
  let st ← rest.foldlM (scanPoint base) (segments, ⟨0, tosort.headD base, false, ⊥⟩)
  (st.2.segment base).foldlM insertSegment st.1

/-! ## All bases -/

/-- `Arrays.sort(pts)` -/
def sortPoints (pts : List Point) : List Point := pts.mergeSort fun p q => p.compareTo q ≤ 0

/-- `Arrays.sort(tosort, base.slopeOrder())` -/
def sortBySlope (base : Point) (tosort : List Point) : List Point :=
  tosort.mergeSort fun p q => base.slopeOrder p q ≤ 0

/-- The loop of `findLineSeg`. -/
def findFrom : List Point → List Point → Segments → Except JavaException Segments
  | [], _, segments => .ok segments
  | base :: pts, tosort, segments => do
    let tosort := sortBySlope base tosort
    findFrom pts tosort (← scanBase base tosort segments)

def findLineSeg (pts tosort : List Point) : Except JavaException Segments :=
  findFrom pts tosort noSegments

/-- The check of two elements of the array of points. -/
def checkPair (pi pj : Option Point) : Except JavaException Unit :=
  match pi, pj with
  | some p, some q => if p.compareTo q = 0 then .error .illegalArgument else .ok ()
  | _, _ => .error .nullPointer

def checkPoints : List (Option Point) → Except JavaException Unit
  | [] => .ok ()
  | p :: ps => do
    ps.forM (checkPair p)
    checkPoints ps

/-- The points of the array: a single `null` is found when it becomes the base. -/
def nonNull (points : List (Option Point)) : Except JavaException (List Point) :=
  points.mapM fun p => match p with
    | none => .error .nullPointer
    | some p => .ok p

structure FastCollinearPoints where
  segs : Slots LineSegment
  numSegs : ℤ

/-- The constructor. -/
def FastCollinearPoints.new (points : Option (List (Option Point))) :
    Except JavaException FastCollinearPoints :=
  match points with
  | none => .error .nullPointer
  | some points => do
    checkPoints points
    let points ← nonNull points
    let segments ← shrink (← findLineSeg (sortPoints points) points)
    return ⟨segments.array, segments.numSegs⟩

def FastCollinearPoints.numberOfSegments (c : FastCollinearPoints) : ℤ := c.numSegs

def FastCollinearPoints.segments (c : FastCollinearPoints) :
    Except JavaException (Slots LineSegment) := do
  let segments ← newSlots c.segs.length
  copySlots (some c.segs) 0 segments c.segs.length

end Courses.Collinear

/-!
# What a base reports

The loop over the points in the order of their slopes reports each run of at least three points
that are all greater than the base, with the greatest of them.
-/
namespace Courses.Collinear

open Courses.Lib

variable {base p : Point} {run : Run} {seen ps qs : List Point} {l : LineSegment}

/-! ## The segments of one base -/

/-- The segments that the loop over these points inserts, with the last one after it. -/
def emitted (base : Point) (run : Run) : List Point → List LineSegment
  | [] => run.segment base
  | p :: ps =>
    (if base.slopeTo p ≠ run.curSlope then run.segment base else []) ++
      emitted base ((run.enter base p).count base p) ps

theorem foldlM_scanPoint (segments : Segments) (run : Run) (ps : List Point) :
    (do
      let st ← ps.foldlM (scanPoint base) (segments, run)
      (st.2.segment base).foldlM insertSegment st.1) =
      (emitted base run ps).foldlM insertSegment segments := by
  induction ps generalizing segments run with
  | nil => rfl
  | cons p ps ih =>
    rw [List.foldlM_cons, emitted, List.foldlM_append]
    by_cases hslope : base.slopeTo p ≠ run.curSlope
    · simp only [scanPoint, if_pos hslope, bind_assoc, pure_bind]
      exact congrArg _ (funext fun s => ih s _)
    · simp only [scanPoint, if_neg hslope]
      exact ih segments _

/-- The base is the least point of a run of at least three others, and this is its segment. -/
structure Reported (base : Point) (ps : List Point) (l : LineSegment) : Prop where
  left : l.p = base
  right : l.q ∈ ps
  between : ∀ p ∈ ps, base.slopeTo p = base.slopeTo l.q → base < p ∧ p ≤ l.q
  three : 3 ≤ ps.countP fun p => base.slopeTo p = base.slopeTo l.q

/-- Points that are seen at other slopes make no difference. -/
theorem reported_append (h : ∀ p ∈ qs, base.slopeTo p ≠ base.slopeTo l.q) :
    Reported base (ps ++ qs) l ↔ Reported base ps l := by
  have hcount : (ps ++ qs).countP (fun p => base.slopeTo p = base.slopeTo l.q) =
      ps.countP fun p => base.slopeTo p = base.slopeTo l.q := by
    rw [List.countP_append, Nat.add_eq_left, List.countP_eq_zero]
    simpa using h
  constructor
  · intro hr
    have hright : l.q ∈ ps := by
      cases List.mem_append.1 hr.right with
      | inl hmem => exact hmem
      | inr hmem => exact absurd rfl (h l.q hmem)
    exact ⟨hr.left, hright, fun p hp => hr.between p (List.mem_append_left _ hp),
      hcount ▸ hr.three⟩
  · intro hr
    refine ⟨hr.left, List.mem_append_left _ hr.right, ?_, hcount.symm ▸ hr.three⟩
    intro p hp hslope
    cases List.mem_append.1 hp with
    | inl hp => exact hr.between p hp hslope
    | inr hp => exact absurd hslope (h p hp)

/-! ## The current run -/

/-- The run is the one of the points with the greatest slope so far. -/
structure Describes (base : Point) (seen : List Point) (run : Run) : Prop where
  slopes_le : ∀ q ∈ seen, base.slopeTo q ≤ run.curSlope
  cnt : run.cnt = seen.countP fun q => base.slopeTo q = run.curSlope ∧ base < q
  neglect : run.neglect = true ↔ ∃ q ∈ seen, base.slopeTo q = run.curSlope ∧ q < base
  maxPoint : run.neglect = false → ∀ q ∈ seen, base.slopeTo q = run.curSlope →
    q ≤ run.maxPoint ∧ run.maxPoint ∈ seen ∧ base.slopeTo run.maxPoint = run.curSlope

theorem describes_nil (base first : Point) : Describes base [] ⟨0, first, false, ⊥⟩ :=
  ⟨by simp, rfl, by simp, by simp⟩

theorem mem_segment (h : Describes base seen run) (hne : ∀ q ∈ seen, q ≠ base) :
    l ∈ run.segment base ↔ Reported base seen l ∧ base.slopeTo l.q = run.curSlope := by
  rw [Run.segment]
  constructor
  · intro hl
    split at hl
    · rename_i hcond
      obtain ⟨hneglect, hcnt⟩ : run.neglect = false ∧ 3 ≤ run.cnt := by simpa using hcond
      obtain rfl := List.mem_singleton.1 hl
      rw [h.cnt] at hcnt
      obtain ⟨q, hq, hslope⟩ := List.countP_pos_iff.1 (three_pos.trans_le hcnt)
      have hslope : base.slopeTo q = run.curSlope ∧ base < q := by simpa using hslope
      obtain ⟨-, hmax, hcur⟩ := h.maxPoint hneglect q hq hslope.1
      refine ⟨⟨rfl, hmax, ?_, ?_⟩, hcur⟩
      · intro p hp hpslope
        rw [hcur] at hpslope
        have hle : base ≤ p := by
          by_contra hlt
          have htrue := h.neglect.2 ⟨p, hp, hpslope, not_le.1 hlt⟩
          simp [hneglect] at htrue
        exact ⟨lt_of_le_of_ne hle (hne p hp).symm, (h.maxPoint hneglect p hp hpslope).1⟩
      · rw [hcur]
        refine hcnt.trans (List.countP_mono_left fun p _ hp => ?_)
        have hp : base.slopeTo p = run.curSlope ∧ base < p := by simpa using hp
        simpa using hp.1
    · simp at hl
  · rintro ⟨hr, hcur⟩
    have hneglect : run.neglect = false := by
      rw [← Bool.not_eq_true, h.neglect]
      rintro ⟨q, hq, hslope, hlt⟩
      exact absurd (hr.between q hq (hslope.trans hcur.symm)).1 (not_lt.2 hlt.le)
    have hcnt : 3 ≤ run.cnt := by
      rw [h.cnt]
      refine hr.three.trans (List.countP_mono_left fun p hp hslope => ?_)
      have hslope : base.slopeTo p = base.slopeTo l.q := by simpa using hslope
      simpa [hslope, hcur] using (hr.between p hp hslope).1
    obtain ⟨hle, hmax, hmaxcur⟩ := h.maxPoint hneglect l.q hr.right hcur
    have heq : l.q = run.maxPoint :=
      le_antisymm hle (hr.between _ hmax (hmaxcur.trans hcur.symm)).2
    have hl : l = ⟨base, run.maxPoint⟩ := by
      rw [← hr.left, ← heq]
    rw [if_pos (by simp [hneglect, hcnt])]
    exact List.mem_singleton.2 hl

theorem nodup_segment (base : Point) (run : Run) : (run.segment base).Nodup := by
  rw [Run.segment]
  split <;> simp

/-- A point with a slope no less than those before begins a run or continues the current one. -/
theorem Describes.enter (h : Describes base seen run) (hle : run.curSlope ≤ base.slopeTo p) :
    Describes base seen (run.enter base p) ∧ (run.enter base p).curSlope = base.slopeTo p ∧
      (base.slopeTo p = run.curSlope ∨ (run.enter base p).maxPoint = p) := by
  rw [Run.enter]
  split
  · rename_i hslope
    have hlt : run.curSlope < base.slopeTo p := lt_of_le_of_ne hle (Ne.symm hslope)
    have hnone : ∀ q ∈ seen, base.slopeTo q ≠ base.slopeTo p := fun q hq =>
      ((h.slopes_le q hq).trans_lt hlt).ne
    refine ⟨⟨fun q hq => (h.slopes_le q hq).trans hle, ?_, ?_, ?_⟩, rfl, .inr rfl⟩
    · symm
      rw [List.countP_eq_zero]
      intro q hq
      simp [hnone q hq]
    · simpa using fun q hq hslope => absurd hslope (hnone q hq)
    · exact fun _ q hq hslope => absurd hslope (hnone q hq)
  · rename_i hslope
    have heq : base.slopeTo p = run.curSlope := not_not.1 hslope
    exact ⟨h, heq.symm, .inl heq⟩

/-- The point is counted as one of the current run. -/
theorem Describes.count (h : Describes base seen run) (hcur : run.curSlope = base.slopeTo p)
    (hne : p ≠ base)
    (hbegun : (∃ q ∈ seen, base.slopeTo q = run.curSlope) ∨ run.maxPoint = p) :
    Describes base (seen ++ [p]) (run.count base p) := by
  have hslopes : ∀ q ∈ seen ++ [p], base.slopeTo q ≤ run.curSlope := by
    intro q hq
    cases List.mem_append.1 hq with
    | inl hq => exact h.slopes_le q hq
    | inr hq => rw [List.mem_singleton.1 hq, hcur]
  rw [Run.count]
  split
  · rename_i hless
    have hless : p < base := Point.compareTo_pos_iff.1 hless
    refine ⟨hslopes, ?_, ?_, by simp⟩
    · rw [List.countP_append, h.cnt]
      simp [hless.not_gt]
    · simpa using Or.inr ⟨hcur.symm, hless⟩
  · rename_i hless
    have hless : base < p := lt_of_le_of_ne (not_lt.1 fun hlt =>
      hless (Point.compareTo_pos_iff.2 hlt)) hne.symm
    refine ⟨hslopes, ?_, ?_, ?_⟩
    · rw [List.countP_append, h.cnt]
      simp [hcur, hless]
    · rw [h.neglect]
      constructor
      · rintro ⟨q, hq, hslope, hlt⟩
        exact ⟨q, List.mem_append_left _ hq, hslope, hlt⟩
      · rintro ⟨q, hq, hslope, hlt⟩
        cases List.mem_append.1 hq with
        | inl hq => exact ⟨q, hq, hslope, hlt⟩
        | inr hq =>
          rw [List.mem_singleton.1 hq] at hlt
          exact absurd hlt hless.not_gt
    · intro hneglect q hq hslope
      have hold := h.maxPoint hneglect
      have hmax : (if p.compareTo run.maxPoint > 0 then p else run.maxPoint) =
          max run.maxPoint p := by
        simp only [Point.compareTo_pos_iff]
        split
        · rename_i hlt
          exact (max_eq_right hlt.le).symm
        · rename_i hle
          exact (max_eq_left (not_lt.1 hle)).symm
      simp only [hmax]
      refine ⟨?_, ?_⟩
      · cases List.mem_append.1 hq with
        | inl hq => exact (hold q hq hslope).1.trans (le_max_left _ _)
        | inr hq => exact List.mem_singleton.1 hq ▸ le_max_right _ _
      · have hp : p ∈ seen ++ [p] ∧ base.slopeTo p = run.curSlope :=
          ⟨List.mem_concat_self, hcur.symm⟩
        have hrun : run.maxPoint ∈ seen ++ [p] ∧ base.slopeTo run.maxPoint = run.curSlope := by
          obtain ⟨q, hq, hslope⟩ | heq := hbegun
          · obtain ⟨-, hmem, hcur⟩ := hold q hq hslope
            exact ⟨List.mem_append_left _ hmem, hcur⟩
          · rwa [heq]
        cases max_choice run.maxPoint p with
        | inl heq => rwa [heq]
        | inr heq => rwa [heq]

/-- The loop inserts the segments of the runs that are not over yet. -/
theorem mem_emitted (h : Describes base seen run)
    (hcur : run.curSlope = ⊥ ∨ ∃ q ∈ seen, base.slopeTo q = run.curSlope)
    (hne : ∀ q ∈ seen ++ ps, q ≠ base)
    (hsorted : (seen ++ ps).Pairwise fun p q => base.slopeTo p ≤ base.slopeTo q) :
    (∀ l, l ∈ emitted base run ps ↔
      Reported base (seen ++ ps) l ∧ run.curSlope ≤ base.slopeTo l.q) ∧
      (emitted base run ps).Nodup := by
  induction ps generalizing seen run with
  | nil =>
    rw [List.append_nil] at hne ⊢
    refine ⟨fun l => ?_, nodup_segment base run⟩
    rw [emitted, mem_segment h hne]
    constructor
    · rintro ⟨hr, heq⟩
      exact ⟨hr, heq.ge⟩
    · rintro ⟨hr, hle⟩
      exact ⟨hr, le_antisymm (h.slopes_le l.q hr.right) hle⟩
  | cons p ps ih =>
    have hpne : p ≠ base := hne p (by simp)
    obtain ⟨-, hafter, hbefore⟩ := List.pairwise_append.1 hsorted
    obtain ⟨hps, -⟩ := List.pairwise_cons.1 hafter
    have hle : run.curSlope ≤ base.slopeTo p := by
      obtain hbot | ⟨q, hq, hslope⟩ := hcur
      · rw [hbot]
        exact bot_le
      · rw [← hslope]
        exact hbefore q hq p List.mem_cons_self
    obtain ⟨henter, hslope, hnew⟩ := h.enter hle
    have hcount := henter.count hslope hpne (by
      obtain heq | hmax := hnew
      · obtain hbot | ⟨q, hq, hq'⟩ := hcur
        · exact absurd (Point.slopeTo_eq_bot_iff.1 (heq.trans hbot)) hpne
        · exact .inl ⟨q, hq, by rw [hslope, heq, hq']⟩
      · exact .inr hmax)
    have hcurSlope : ((run.enter base p).count base p).curSlope = base.slopeTo p := by
      rw [← hslope, Run.count]
      split <;> rfl
    obtain ⟨hmem, hnodup⟩ := ih hcount (.inr ⟨p, by simp, hcurSlope.symm⟩) (by simpa using hne)
      (by simpa using hsorted)
    rw [hcurSlope] at hmem
    simp only [List.append_assoc, List.singleton_append] at hmem
    rw [emitted]
    by_cases heq : base.slopeTo p ≠ run.curSlope
    · rw [if_pos heq]
      have hlt : run.curSlope < base.slopeTo p := lt_of_le_of_ne hle heq.symm
      have hsegment : ∀ l, l ∈ run.segment base ↔
          Reported base seen l ∧ base.slopeTo l.q = run.curSlope :=
        fun l => mem_segment h fun q hq => hne q (List.mem_append_left _ hq)
      have hlater : ∀ q ∈ p :: ps, base.slopeTo p ≤ base.slopeTo q :=
        List.forall_mem_cons.2 ⟨le_rfl, hps⟩
      have hover : ∀ l : LineSegment, base.slopeTo l.q = run.curSlope →
          (Reported base (seen ++ p :: ps) l ↔ Reported base seen l) := fun l hl =>
        reported_append fun q hq => by
          rw [hl]
          exact (hlt.trans_le (hlater q hq)).ne'
      refine ⟨fun l => ?_, ?_⟩
      · rw [List.mem_append, hsegment, hmem]
        constructor
        · rintro (⟨hr, hl⟩ | ⟨hr, hl⟩)
          · exact ⟨(hover l hl).2 hr, hl.ge⟩
          · exact ⟨hr, hle.trans hl⟩
        · rintro ⟨hr, hl⟩
          cases List.mem_append.1 hr.right with
          | inl hq =>
            have hl := le_antisymm (h.slopes_le l.q hq) hl
            exact .inl ⟨(hover l hl).1 hr, hl⟩
          | inr hq => exact .inr ⟨hr, hlater l.q hq⟩
      · refine List.nodup_append.2 ⟨nodup_segment base run, hnodup, ?_⟩
        rintro l hl l' hl' rfl
        have hcur := ((hsegment l).1 hl).2
        have hge := ((hmem l).1 hl').2
        rw [hcur] at hge
        exact absurd hge hlt.not_ge
    · rw [if_neg heq, List.nil_append]
      refine ⟨fun l => ?_, hnodup⟩
      rw [hmem, not_not.1 heq]

end Courses.Collinear
