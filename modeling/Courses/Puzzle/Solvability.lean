import Courses.Puzzle.Reachability
import Courses.Puzzle.Solver

/-!
# Solutions are shortest

A solution is a sequence of boards from the initial board to the goal by legal
moves. The solution of a solver has as many boards as any sequence needs.
-/

namespace Courses.Puzzle

open BestFirst

variable {n : ℕ}

/-- A sequence of boards from `b` to the goal, each one move after the last. -/
def IsSolution (b : Board n) (path : List (Board n)) : Prop :=
  path.head? = some b ∧ path.IsChain Move ∧ ∃ g, path.getLast? = some g ∧ IsGoalBoard g

theorem isSolution_reverse_iff {b : Board n} {s : List (Board n)} :
    IsSolution b s.reverse ↔ Solves Board.neighbors IsGoalBoard b s := by
  simp only [IsSolution, Solves, trail_iff, List.head?_reverse, List.getLast?_reverse,
    List.isChain_reverse, mem_neighbors_iff, Option.mem_def, and_assoc]

namespace Solver

variable {pq : MinPQ (Node n) byManhattan} {start start' : Board n} {q q' : pq.Queue}

theorem loop_of_found {fuel : ℕ}
    (h : (turn pq q).2.isSome = true ∨ (turn pq q').2.isSome = true) :
    loop pq (fuel + 1) q q' = some (turn pq q).2 := by
  rw [loop]
  rcases h with h | h <;> simp [h]

theorem loop_of_none {fuel : ℕ} (h : (turn pq q).2 = none) (h' : (turn pq q').2 = none) :
    loop pq (fuel + 1) q q' = loop pq fuel (turn pq q).1 (turn pq q').1 := by
  rw [loop]
  simp [h, h']

/-- What the loop returns: a node that ends a shortest trail, or nothing when
the other search has found the goal. -/
theorem loop_spec (hn : 0 < n) (h : Searches pq start q) (h' : Searches pq start' q')
    {fuel : ℕ} {result : Option (Node n)} (hloop : loop pq fuel q q' = some result) :
    (∀ nd, result = some nd →
      nd.Linked ∧ Shortest Board.neighbors IsGoalBoard start nd.trail) ∧
    (result = none → ∃ s, Shortest Board.neighbors IsGoalBoard start' s) := by
  induction fuel generalizing q q' with
  | zero => simp [loop] at hloop
  | succ fuel ih =>
    obtain ⟨hfound, hnext⟩ := h.turn hn Prod.mk.eta.symm
    obtain ⟨hfound', hnext'⟩ := h'.turn hn Prod.mk.eta.symm
    by_cases hsome : (turn pq q).2.isSome = true ∨ (turn pq q').2.isSome = true
    · rw [loop_of_found hsome] at hloop
      obtain rfl := Option.some.inj hloop
      refine ⟨hfound, fun hnone => ?_⟩
      obtain ⟨nd', hnd'⟩ := Option.isSome_iff_exists.mp (hsome.resolve_left (by simp [hnone]))
      exact ⟨nd'.trail, (hfound' nd' hnd').2⟩
    · rw [not_or, Bool.not_eq_true, Option.isSome_eq_false_iff, Option.isNone_iff_eq_none,
        Bool.not_eq_true, Option.isSome_eq_false_iff, Option.isNone_iff_eq_none] at hsome
      rw [loop_of_none hsome.1 hsome.2] at hloop
      exact ih (hnext hsome.1).1 (hnext' hsome.2).1 hloop

/-- When the constructor ends with a solution, the solution leads from the
initial board to the goal by legal moves, has one board more than moves, and no
shorter sequence of boards does the same. -/
theorem solution_shortest (hn : 2 ≤ n) (initial : Board n) (fuel : ℕ) (s : Solver n)
    (hnew : new pq fuel initial = some s) (hsolvable : s.isSolvable = true) :
    ∃ path, s.solution = some path ∧ IsSolution initial path ∧
      (path.length : ℤ) = s.moves + 1 ∧
      ∀ path', IsSolution initial path' → path.length ≤ path'.length := by
  obtain ⟨result, htry, rfl⟩ := Option.map_eq_some_iff.mp hnew
  unfold trySolve at htry
  cases htwin : initial.twin with
  | none => simp [htwin] at htry
  | some twin =>
    rw [htwin] at htry
    have hspec := loop_spec (Nat.lt_of_lt_of_le Nat.zero_lt_two hn) searches_start
      searches_start htry
    cases result with
    | none => simp [isSolvable] at hsolvable
    | some nd =>
      obtain ⟨hlinked, hsolves, hleast⟩ := hspec.1 nd rfl
      obtain ⟨p, htrail, -, hlen⟩ := hlinked.trail_eq
      have hpath : nd.pushBoards [] = nd.trail.reverse := by
        rw [Node.pushBoards_eq, List.append_nil]
      refine ⟨nd.trail.reverse, congrArg some hpath, isSolution_reverse_iff.mpr hsolves, ?_, ?_⟩
      · rw [List.length_reverse, htrail, List.length_cons, hlen]
        rfl
      · intro path' hpath'
        rw [← List.reverse_reverse path', isSolution_reverse_iff] at hpath'
        have hlength : path'.reverse.length = path'.length := List.length_reverse
        rw [List.length_reverse, ← hlength]
        exact hleast _ hpath'

/-- A board one move from the goal is solved with two boards. -/
theorem solution_shortest_oneMove :
    ∃ s : Solver 2, new (.ofList byManhattan) 5 ((Board.goal 2).swapAndCreate (1, 1) (1, 0)) = some s ∧
      ∃ path, s.solution = some path ∧
        IsSolution ((Board.goal 2).swapAndCreate (1, 1) (1, 0)) path ∧
        (path.length : ℤ) = s.moves + 1 ∧
        ∀ path', IsSolution ((Board.goal 2).swapAndCreate (1, 1) (1, 0)) path' →
          path.length ≤ path'.length := by
  have hrun : (new (.ofList byManhattan) 5
      ((Board.goal 2).swapAndCreate (1, 1) (1, 0))).map isSolvable = some true := by
    decide +kernel
  obtain ⟨s, hs, hsolvable⟩ := Option.map_eq_some_iff.mp hrun
  exact ⟨s, hs, solution_shortest le_rfl _ 5 s hs hsolvable⟩

end Solver

end Courses.Puzzle

/-!
# Solvability is decided

Exactly one of a board and its twin can be solved. Its search finds the goal
before its potential runs out, so the constructor ends, and it ends with a
solution when the board is the one that can be solved.
-/

namespace Courses.Puzzle

open BestFirst

variable {n : ℕ} {b b' : Board n}

/-- The goal board can be reached by legal moves. -/
def Solvable (b : Board n) : Prop := ∃ g, IsGoalBoard g ∧ Reaches b g

theorem reaches_of_trail {s : List (Board n)} (h : Trail Board.neighbors b s) :
    ∀ g ∈ s.head?, Reaches b g := by
  induction h with
  | start =>
    intro g hg
    obtain rfl : b = g := by simpa using hg
    exact .refl
  | @step x y p _ hy ih =>
    intro g hg
    obtain rfl : y = g := by simpa using hg
    exact Relation.ReflTransGen.tail (ih x rfl) (mem_neighbors_iff.mp hy)

theorem exists_trail_of_reaches (h : Reaches b b') : ∃ p, Trail Board.neighbors b (b' :: p) := by
  induction h with
  | refl => exact ⟨[], .start⟩
  | tail _ hmove ih =>
    obtain ⟨p, hp⟩ := ih
    exact ⟨_, hp.step (mem_neighbors_iff.mpr hmove)⟩

theorem solvable_iff_exists_shortest :
    Solvable b ↔ ∃ s, Shortest Board.neighbors IsGoalBoard b s := by
  constructor
  · rintro ⟨g, hg, hreach⟩
    obtain ⟨p, hp⟩ := exists_trail_of_reaches hreach
    have hsolves : Solves Board.neighbors IsGoalBoard b (g :: p) := ⟨hp, g, rfl, hg⟩
    obtain ⟨s, hs, -⟩ := hsolves.exists_shortest
    exact ⟨s, hs⟩
  · rintro ⟨s, ⟨htrail, g, hg, hgoal⟩, -⟩
    exact ⟨g, hgoal, reaches_of_trail htrail g hg⟩

/-- Every row holds a tile, and the first one and the last one are different rows. -/
theorem exists_tile_in_row (hn : 2 ≤ n) (b : Board n) (r : Fin n) : ∃ c : Cell n, c.1 = r ∧
    b.tile c ≠ 0 := by
  by_cases h : b.tile (r, ⟨0, by omega⟩) = 0
  · refine ⟨(r, ⟨1, by omega⟩), rfl, fun h' => ?_⟩
    have hcell := tile_injective b (h.trans h'.symm)
    simp at hcell
  · exact ⟨_, rfl, h⟩

/-- `twin` exchanges two tiles. -/
theorem twin_eq (hn : 2 ≤ n) (b : Board n) : ∃ p q, b.twin = some (b.swapAndCreate p q) ∧
    p ≠ q ∧ b.tile p ≠ 0 ∧ b.tile q ≠ 0 := by
  obtain ⟨m, rfl⟩ : ∃ m, n = m + 1 := Nat.exists_eq_succ_of_ne_zero (by omega)
  obtain ⟨c, hc, hct⟩ := exists_tile_in_row hn b 0
  obtain ⟨d, hd, hdt⟩ := exists_tile_in_row hn b (Fin.last m)
  obtain ⟨p, hp⟩ := exists_findInRow (b := b) (P := (· ≠ 0)) (List.mem_finRange c.2) (by simpa)
  obtain ⟨q, hq⟩ := exists_findInRow (b := b) (P := (· ≠ 0))
    (List.mem_reverse.mpr (List.mem_finRange d.2)) (by simpa)
  rw [hc] at hp
  rw [hd] at hq
  have hfirst : ∀ f : Fin (m + 1) → Option (Cell (m + 1)), f 0 = some p →
      (List.finRange (m + 1)).findSome? f = some p := by
    intro f hf
    rw [List.finRange_succ, List.findSome?_cons, hf]
  have hlast : (List.finRange (m + 1)).reverse.head? = some (Fin.last m) := by
    simp [List.finRange_succ_last]
  have hrows : p ≠ q := by
    rintro rfl
    have h0 := (tile_of_findInRow hp).1
    have hm := (tile_of_findInRow hq).1
    rw [h0] at hm
    have := congrArg Fin.val hm
    simp at this
    omega
  refine ⟨p, q, ?_, hrows, by simpa using (tile_of_findInRow hp).2,
    by simpa using (tile_of_findInRow hq).2⟩
  rw [Board.twin, hfirst _ hp, hlast, Option.bind_eq_bind, Option.bind_some,
    Option.bind_eq_bind, Option.bind_some, hq]
  rfl

/-- Exactly one of a board and its twin can be solved. -/
theorem solvable_iff_not_solvable_twin (hn : 2 ≤ n) (htwin : b.twin = some b') :
    Solvable b ↔ ¬Solvable b' := by
  obtain ⟨p, q, heq, hpq, hp, hq⟩ := twin_eq hn b
  obtain rfl := Option.some.inj (htwin.symm.trans heq)
  have hnot : Solvable b → ¬Solvable (b.swapAndCreate p q) := by
    rintro ⟨g, hg, hreach⟩ ⟨g', hg', hreach'⟩
    obtain rfl := hg.unique hg'
    exact not_reaches_swapAndCreate hpq hp hq (hreach.trans hreach'.symm)
  refine ⟨hnot, fun hunsolvable => ?_⟩
  rcases reaches_or_reaches_swapAndCreate hn (Board.goal n) hpq hp hq with h | h
  · exact ⟨_, isGoalBoard_goal n, h⟩
  · exact absurd ⟨_, isGoalBoard_goal n, h⟩ hunsolvable

namespace Solver

variable {pq : MinPQ (Node n) byManhattan} {start start' : Board n} {q q' : pq.Queue}

/-- The potential that runs out: that of a search whose start can be solved. -/
def Bounded (start : Board n) (q : pq.Queue) (k : ℕ) : Prop :=
  ∃ s, Shortest Board.neighbors IsGoalBoard start s ∧ potential 4 s.length (trails q) = k

/-- The loop ends when one of the two starts can be solved. -/
theorem exists_loop (hn : 0 < n) (h : Searches pq start q) (h' : Searches pq start' q') {k : ℕ}
    (hk : Bounded start q k ∨ Bounded start' q' k) :
    ∃ fuel result, loop pq fuel q q' = some result := by
  induction k using Nat.strong_induction_on generalizing q q' with
  | _ k ih =>
    by_cases hsome : (turn pq q).2.isSome = true ∨ (turn pq q').2.isSome = true
    · exact ⟨1, _, loop_of_found hsome⟩
    rw [not_or, Bool.not_eq_true, Option.isSome_eq_false_iff, Option.isNone_iff_eq_none,
      Bool.not_eq_true, Option.isSome_eq_false_iff, Option.isNone_iff_eq_none] at hsome
    obtain ⟨hnext, hless⟩ := (h.turn hn Prod.mk.eta.symm).2 hsome.1
    obtain ⟨hnext', hless'⟩ := (h'.turn hn Prod.mk.eta.symm).2 hsome.2
    have hrest : ∃ fuel result, loop pq fuel (turn pq q).1 (turn pq q').1 = some result := by
      rcases hk with ⟨s, hs, rfl⟩ | ⟨s, hs, rfl⟩
      · exact ih _ (hless s hs) hnext hnext' (Or.inl ⟨s, hs, rfl⟩)
      · exact ih _ (hless' s hs) hnext hnext' (Or.inr ⟨s, hs, rfl⟩)
    obtain ⟨fuel, result, hloop⟩ := hrest
    exact ⟨fuel + 1, result, (loop_of_none hsome.1 hsome.2).trans hloop⟩

/-- The constructor ends, and the board is said to be solvable exactly when the
goal can be reached from it by legal moves; of the board and its twin exactly
one has this property. -/
theorem isSolvable_iff_solvable (pq : MinPQ (Node n) byManhattan) (hn : 2 ≤ n)
    (initial : Board n) :
    (∃ twin, initial.twin = some twin ∧ (Solvable initial ↔ ¬Solvable twin)) ∧
    (∃ fuel s, new pq fuel initial = some s) ∧
    ∀ fuel s, new pq fuel initial = some s → (s.isSolvable = true ↔ Solvable initial) := by
  have hpos : 0 < n := Nat.lt_of_lt_of_le Nat.zero_lt_two hn
  obtain ⟨p, q, htwin, -⟩ := twin_eq hn initial
  have htwins := solvable_iff_not_solvable_twin hn htwin
  refine ⟨⟨_, htwin, htwins⟩, ?_, fun fuel s hs => ?_⟩
  · have hloop : ∃ fuel result, loop pq fuel (pq.insert pq.new (.mk initial none 0 none))
        (pq.insert pq.new (.mk (initial.swapAndCreate p q) none 0 none)) = some result := by
      by_cases hsolvable : Solvable initial
      · obtain ⟨s, hs⟩ := solvable_iff_exists_shortest.mp hsolvable
        exact exists_loop hpos searches_start searches_start (Or.inl ⟨s, hs, rfl⟩)
      · obtain ⟨s, hs⟩ := solvable_iff_exists_shortest.mp (by_contra (mt htwins.mpr hsolvable))
        exact exists_loop hpos searches_start searches_start (Or.inr ⟨s, hs, rfl⟩)
    obtain ⟨fuel, result, hloop⟩ := hloop
    have htry : trySolve pq fuel initial = some result := by
      rw [trySolve, htwin]
      exact hloop
    exact ⟨fuel, _, congrArg (Option.map _) htry⟩
  · obtain ⟨result, htry, rfl⟩ := Option.map_eq_some_iff.mp hs
    rw [trySolve, htwin] at htry
    obtain ⟨hfound, hnone⟩ := loop_spec hpos searches_start searches_start htry
    cases result with
    | some nd =>
      have hsolvable := solvable_iff_exists_shortest.mpr ⟨_, (hfound nd rfl).2⟩
      simpa [isSolvable] using hsolvable
    | none =>
      have htwinSolvable := solvable_iff_exists_shortest.mpr (hnone rfl)
      have hnot : ¬Solvable initial := fun h => htwins.mp h htwinSolvable
      simpa [isSolvable] using hnot

/-- The goal board is said to be solvable and its twin is not solvable. -/
theorem isSolvable_iff_solvable_goal :
    (∃ twin, (Board.goal 2).twin = some twin ∧ ¬Solvable twin) ∧
    ∃ fuel s, new (.ofList byManhattan) fuel (Board.goal 2) = some s ∧ s.isSolvable = true := by
  have hgoal : Solvable (Board.goal 2) := ⟨_, isGoalBoard_goal 2, .refl⟩
  obtain ⟨⟨twin, htwin, htwins⟩, ⟨fuel, s, hs⟩, hsolvable⟩ :=
    isSolvable_iff_solvable (.ofList byManhattan) le_rfl (Board.goal 2)
  exact ⟨⟨twin, htwin, htwins.mp hgoal⟩, fuel, s, hs, (hsolvable fuel s hs).mpr hgoal⟩

end Solver

end Courses.Puzzle
