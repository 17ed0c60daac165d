import Courses.Lib.BestFirst
import Courses.Lib.PriorityQueue
import Courses.Puzzle.Moves

/-!
# The solver

`trySolve` runs two best-first searches in lock step, one from the board and
one from its twin, until one of them removes a goal board from its queue. The
queue is any that removes a minimum under the comparator. The loop runs on a
count of rounds; `none` is a loop that has not ended by then, or the exception
of `twin`.
-/

namespace Courses.Puzzle

inductive Node (n : ℕ) where
  | mk (curBoard : Board n) (prevBoard : Option (Board n)) (moves : ℕ) (prev : Option (Node n))

namespace Node

variable {n : ℕ}

def curBoard : Node n → Board n
  | mk curBoard _ _ _ => curBoard

def prevBoard : Node n → Option (Board n)
  | mk _ prevBoard _ _ => prevBoard

def moves : Node n → ℕ
  | mk _ _ moves _ => moves

/-- Push the boards of a node and of those before it on a deque. -/
def pushBoards : Node n → List (Board n) → List (Board n)
  | mk curBoard _ _ none, deque => curBoard :: deque
  | mk curBoard _ _ (some prev), deque => pushBoards prev (curBoard :: deque)

end Node

/-- The comparator `ByManhattan`. -/
def byManhattan {n : ℕ} (o1 o2 : Node n) : Ordering :=
  let manhattan1 := o1.moves + o1.curBoard.manhattan
  let manhattan2 := o2.moves + o2.curBoard.manhattan
  if manhattan1 < manhattan2 then .lt
  else if manhattan1 = manhattan2 then .eq
  else .gt

structure Solver (n : ℕ) where
  svble : Bool
  moves : ℤ
  solution : Option (List (Board n))

namespace Solver

variable {n : ℕ} (pq : MinPQ (Node n) byManhattan)

/-- The nodes inserted for the neighbours of a node's board. -/
def children (node : Node n) : List (Node n) :=
  (node.curBoard.neighbors.filter fun nb => node.prevBoard ≠ some nb).map
    fun nb => .mk nb (some node.curBoard) (node.moves + 1) (some node)

/-- What one round does with one of the two queues, and the goal node it removed. -/
def turn (q : pq.Queue) : pq.Queue × Option (Node n) :=
  if pq.isEmpty q then (q, none)
  else
    match pq.delMin q with
    | none => (q, none)
    | some (node, q) =>
        if node.curBoard.isGoal then (q, some node)
        else ((children node).foldl pq.insert q, none)

/-- The loop, with the number of rounds it may take. -/
def loop : ℕ → pq.Queue → pq.Queue → Option (Option (Node n))
  | 0, _, _ => none
  | fuel + 1, pq0, pq1 =>
      let (pq0, result) := turn pq pq0
      let (pq1, twinResult) := turn pq pq1
      if !result.isSome && !twinResult.isSome then loop fuel pq0 pq1 else some result

def trySolve (fuel : ℕ) (initial : Board n) : Option (Option (Node n)) :=
  match initial.twin with
  | none => none
  | some twin =>
      loop pq fuel (pq.insert pq.new (.mk initial none 0 none))
        (pq.insert pq.new (.mk twin none 0 none))

/-- The constructor. -/
def new (fuel : ℕ) (initial : Board n) : Option (Solver n) :=
  (trySolve pq fuel initial).map fun
    | none => ⟨false, -1, none⟩
    | some nd => ⟨true, nd.moves, some (nd.pushBoards [])⟩

def isSolvable (s : Solver n) : Bool := s.svble

end Solver

end Courses.Puzzle

/-!
# The solver searches best-first

A node stands for the trail of boards along its `prev` links. The two queues
are frontiers of trails with the Manhattan distance as the heuristic, so the
rules of best-first search apply to every round: a removed goal node ends a
shortest trail, and every other round lowers the potential of a queue from
whose start a goal can be reached.
-/

namespace Courses.Puzzle

open BestFirst

variable {n : ℕ}

namespace Node

/-- The boards of a node and of those before it, latest first. -/
def trail : Node n → List (Board n)
  | mk curBoard _ _ none => [curBoard]
  | mk curBoard _ _ (some prev) => curBoard :: prev.trail

/-- The fields of a node agree with the node before it. -/
def Linked : Node n → Prop
  | mk _ prevBoard moves none => prevBoard = none ∧ moves = 0
  | mk _ prevBoard moves (some prev) =>
      prevBoard = some prev.curBoard ∧ moves = prev.moves + 1 ∧ prev.Linked

theorem head?_trail (nd : Node n) : nd.trail.head? = some nd.curBoard := by
  obtain ⟨cur, _, _, _ | prev⟩ := nd <;> rfl

theorem pushBoards_eq (nd : Node n) (deque : List (Board n)) :
    nd.pushBoards deque = nd.trail.reverse ++ deque := by
  induction nd, deque using pushBoards.induct with
  | case1 cur prevBoard moves deque => simp [pushBoards, trail]
  | case2 cur prevBoard moves prev deque ih => simp [pushBoards, trail, ih]

theorem Linked.trail_eq {nd : Node n} (h : nd.Linked) :
    ∃ p, nd.trail = nd.curBoard :: p ∧ p.head? = nd.prevBoard ∧ p.length = nd.moves := by
  induction nd using trail.induct with
  | case1 cur prevBoard moves => exact ⟨[], rfl, h.1.symm, h.2.symm⟩
  | case2 cur prevBoard moves prev ih =>
    obtain ⟨p, htrail, -, hlen⟩ := ih h.2.2
    refine ⟨prev.trail, rfl, ?_, ?_⟩
    · rw [head?_trail]
      exact h.1.symm
    · rw [htrail, List.length_cons, hlen]
      exact h.2.1.symm

theorem Linked.priority_eq {nd : Node n} (h : nd.Linked) :
    priority Board.manhattan nd.trail = nd.moves + nd.curBoard.manhattan := by
  obtain ⟨p, htrail, -, hlen⟩ := h.trail_eq
  rw [htrail, priority, hlen]

end Node

theorem byManhattan_eq_compareOn :
    (byManhattan : Node n → Node n → Ordering) =
      compareOn fun nd => nd.moves + nd.curBoard.manhattan := by
  funext o1 o2
  simp only [byManhattan, compareOn, Nat.compare_eq_ite_lt]
  grind

instance : Std.TransCmp (byManhattan : Node n → Node n → Ordering) := by
  rw [byManhattan_eq_compareOn]
  infer_instance

theorem byManhattan_ne_gt {o1 o2 : Node n} : byManhattan o1 o2 ≠ .gt ↔
    o1.moves + o1.curBoard.manhattan ≤ o2.moves + o2.curBoard.manhattan := by
  unfold byManhattan
  grind

namespace Solver

/-- The nodes inserted for a node are the extensions of its trail. -/
theorem trail_children {nd : Node n} (h : nd.Linked) :
    (children nd).map Node.trail = extensions Board.neighbors nd.trail := by
  obtain ⟨p, htrail, hprev, -⟩ := h.trail_eq
  simp only [children, extensions, htrail, hprev, List.map_map]
  exact List.map_congr_left fun b _ => by simp [Node.trail, htrail]

theorem linked_of_mem_children {nd child : Node n} (h : nd.Linked) (hc : child ∈ children nd) :
    child.Linked := by
  simp only [children, List.mem_map] at hc
  obtain ⟨b, -, rfl⟩ := hc
  exact ⟨rfl, rfl, h⟩

variable {pq : MinPQ (Node n) byManhattan} {start : Board n} {q : pq.Queue}

/-- The trails of the nodes in a queue. -/
def trails (q : pq.Queue) : Multiset (List (Board n)) := (pq.items q).map Node.trail

/-- A queue that searches from `start`. -/
structure Searches (pq : MinPQ (Node n) byManhattan) (start : Board n) (q : pq.Queue) : Prop where
  linked : ∀ nd ∈ pq.items q, nd.Linked
  frontier : Frontier Board.neighbors IsGoalBoard start (trails q)

theorem searches_start : Searches pq start (pq.insert pq.new (.mk start none 0 none)) := by
  have hitems : pq.items (pq.insert pq.new (.mk start none 0 none)) = {.mk start none 0 none} := by
    rw [pq.items_insert, pq.items_new]
    rfl
  constructor
  · intro nd hnd
    rw [hitems, Multiset.mem_singleton] at hnd
    rw [hnd]
    exact ⟨rfl, rfl⟩
  · rw [trails, hitems, Multiset.map_singleton]
    exact frontier_start

theorem manhattan_le_of_mem_neighbors (b : Board n) :
    ∀ b' ∈ b.neighbors, b.manhattan ≤ b'.manhattan + 1 :=
  fun _ hb' => manhattan_le_of_move (mem_neighbors_iff.mp hb')

/-- A turn either removes a shortest trail to the goal or searches on with a
lower potential. -/
theorem Searches.turn (hn : 0 < n) (h : Searches pq start q) {q' : pq.Queue}
    {result : Option (Node n)} (hturn : turn pq q = (q', result)) :
    (∀ nd, result = some nd →
      nd.Linked ∧ Shortest Board.neighbors IsGoalBoard start nd.trail) ∧
    (result = none → Searches pq start q' ∧
      ∀ s, Shortest Board.neighbors IsGoalBoard start s →
        potential 4 s.length (trails q') < potential 4 s.length (trails q)) := by
  unfold Solver.turn at hturn
  by_cases hempty : pq.items q = 0
  · rw [if_pos ((pq.isEmpty_iff q).mpr hempty)] at hturn
    obtain ⟨rfl, rfl⟩ := Prod.mk.inj hturn
    refine ⟨fun _ hnone => absurd hnone (by simp), fun _ => ⟨h, fun s hs => ?_⟩⟩
    obtain ⟨p, hp, -⟩ := h.frontier.covers s hs
    simp [trails, hempty] at hp
  rw [if_neg fun h => hempty ((pq.isEmpty_iff q).mp h)] at hturn
  obtain ⟨nd, q₁, hdel, hitems, hmin⟩ := pq.delMin_minimum q hempty
  rw [hdel] at hturn
  have hnd : nd ∈ pq.items q := hitems ▸ Multiset.mem_cons_self nd _
  have hlinked : nd.Linked := h.linked nd hnd
  have htrails : trails q = nd.trail ::ₘ trails q₁ := by
    rw [trails, hitems, Multiset.map_cons]
    rfl
  have hleast : ∀ p ∈ trails q, priority Board.manhattan nd.trail ≤ priority Board.manhattan p := by
    intro p hp
    obtain ⟨nd', hnd', rfl⟩ := Multiset.mem_map.mp hp
    rw [hlinked.priority_eq, (h.linked nd' hnd').priority_eq]
    exact byManhattan_ne_gt.mp (hmin nd' hnd')
  have hgoal : ∀ b : Board n, IsGoalBoard b → b.manhattan = 0 := fun b => manhattan_of_goal
  by_cases hend : nd.curBoard.isGoal = true
  · simp only [hend, if_true] at hturn
    obtain ⟨rfl, rfl⟩ := Prod.mk.inj hturn
    refine ⟨fun nd' hnd' => ?_, fun hnone => absurd hnone (by simp)⟩
    obtain rfl := Option.some.inj hnd'
    refine ⟨hlinked, h.frontier.shortest manhattan_le_of_mem_neighbors hgoal
      (Multiset.mem_map_of_mem _ hnd) hleast ?_⟩
    exact ⟨nd.curBoard, nd.head?_trail, (isGoal_iff hn).mp hend⟩
  · simp only [hend] at hturn
    obtain ⟨rfl, rfl⟩ := Prod.mk.inj hturn
    have hnext : trails ((children nd).foldl pq.insert q₁) =
        trails q₁ + (extensions Board.neighbors nd.trail : Multiset (List (Board n))) := by
      rw [trails, pq.items_foldl_insert, Multiset.map_add, Multiset.map_coe,
        trail_children hlinked]
      rfl
    refine ⟨fun _ hnone => absurd hnone (by simp), fun _ => ⟨⟨?_, ?_⟩, fun s hs => ?_⟩⟩
    · intro nd' hnd'
      rw [pq.items_foldl_insert] at hnd'
      rcases Multiset.mem_add.mp hnd' with hnd' | hnd'
      · exact h.linked nd' (hitems ▸ Multiset.mem_cons_of_mem hnd')
      · exact linked_of_mem_children hlinked (Multiset.mem_coe.mp hnd')
    · rw [hnext]
      refine (htrails ▸ h.frontier).extend fun g hg => ?_
      obtain rfl : nd.curBoard = g := by simpa [Node.head?_trail] using hg
      exact fun hg => hend ((isGoal_iff hn).mpr hg)
    · have hne : nd.trail ≠ [] := (h.frontier.trail _ (Multiset.mem_map_of_mem _ hnd)).ne_nil
      rw [hnext, htrails]
      exact potential_extend_lt length_neighbors_le
        (h.frontier.length_le manhattan_le_of_mem_neighbors hgoal hne hleast hs)

end Solver

end Courses.Puzzle
