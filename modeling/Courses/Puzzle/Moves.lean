import Mathlib.GroupTheory.Perm.Sign
import Mathlib.Logic.Equiv.Fin.Basic
import Mathlib.Tactic

/-!
# Boards of the sliding puzzle

A board of dimension `n` holds the numbers 0 to n * n - 1, each once, so it is
a bijection from its cells; 0 is the blank. The functions are those of
`Board`, with its loops over rows and columns as searches and folds; an `int`
is an unbounded integer.
-/

namespace Courses.Puzzle

abbrev Cell (n : ℕ) := Fin n × Fin n

structure Board (n : ℕ) where
  board : Cell n ≃ Fin (n * n)
deriving DecidableEq

namespace Board

variable {n : ℕ}

/-- `board[r][c]`. -/
def tile (b : Board n) (c : Cell n) : ℕ := b.board c

/-- The cell `(i / dim, i % dim)`. -/
def cellAt (i : Fin (n * n)) : Cell n := (i.divNat, i.modNat)

def hamming (b : Board n) : ℤ :=
  (List.finRange (n * n)).foldl (fun ham i => if b.tile (cellAt i) ≠ i + 1 then ham + 1 else ham)
    (-1)

def manhattan (b : Board n) : ℕ :=
  (List.finRange (n * n)).foldl (fun man i =>
    let (r, c) := cellAt i
    if b.tile (r, c) = 0 then man
    else
      let manr : ℤ := (b.tile (r, c) - 1) / n
      let manc : ℤ := (b.tile (r, c) - 1) % n
      man + ((manr - r).natAbs + (manc - c).natAbs)) 0

def isGoal (b : Board n) : Bool := b.hamming = 0

def swapAndCreate (b : Board n) (p q : Cell n) : Board n := ⟨(Equiv.swap p q).trans b.board⟩

/-- The first column of the list whose tile in row `r` satisfies `P`. -/
def findInRow (b : Board n) (P : ℕ → Bool) (columns : List (Fin n)) (r : Fin n) :
    Option (Cell n) :=
  (columns.find? fun c => P (b.tile (r, c))).map (r, ·)

/-- Two tiles that are not the blank change places. The second search stops at
the last row in any case, as its outer loop leaves off when `c2 < dim`; `none`
is an index out of bounds. -/
def twin (b : Board n) : Option (Board n) := do
  let p ← (List.finRange n).findSome? (b.findInRow (· ≠ 0) (List.finRange n))
  let r2 ← (List.finRange n).reverse.head?
  let q ← b.findInRow (· ≠ 0) (List.finRange n).reverse r2
  return b.swapAndCreate p q

/-- The cell of the blank; there is none on the empty board only. -/
def blank (b : Board n) : Option (Cell n) :=
  (List.finRange n).findSome? (b.findInRow (· = 0) (List.finRange n))

def neighbors (b : Board n) : List (Board n) :=
  match b.blank with
  | none => []
  | some (i, j) =>
      (if h : i.val > 0 then [b.swapAndCreate (i, j) (⟨i - 1, by omega⟩, j)] else []) ++
      (if h : i.val < n - 1 then [b.swapAndCreate (i, j) (⟨i + 1, by omega⟩, j)] else []) ++
      (if h : j.val > 0 then [b.swapAndCreate (i, j) (i, ⟨j - 1, by omega⟩)] else []) ++
      (if h : j.val < n - 1 then [b.swapAndCreate (i, j) (i, ⟨j + 1, by omega⟩)] else [])

end Board

/-- Cells that share a side. -/
def Adjacent {n : ℕ} (p q : Cell n) : Prop :=
  (p.2 = q.2 ∧ (p.1.val + 1 = q.1 ∨ q.1.val + 1 = p.1)) ∨
  (p.1 = q.1 ∧ (p.2.val + 1 = q.2 ∨ q.2.val + 1 = p.2))

/-- One legal move of the blank. -/
def Move {n : ℕ} (b b' : Board n) : Prop :=
  ∃ z c, b.tile z = 0 ∧ Adjacent z c ∧ b' = b.swapAndCreate z c

/-- The tiles in order, row by row, and the blank in the last cell. -/
def IsGoalBoard {n : ℕ} (b : Board n) : Prop :=
  ∀ i : Fin (n * n), b.tile (Board.cellAt i) = if i.val + 1 = n * n then 0 else i.val + 1

end Courses.Puzzle

/-!
# Moves, distances and the goal

The neighbours a board computes are its legal moves, a move changes the
Manhattan distance by at most one because only one tile moves, and the Hamming
distance is 0 on the goal board only.
-/

namespace Courses.Puzzle

variable {n : ℕ} {b b' : Board n} {p q z c : Cell n}

theorem tile_injective (b : Board n) : Function.Injective b.tile :=
  Fin.val_injective.comp b.board.injective

theorem tile_lt (b : Board n) (c : Cell n) : b.tile c < n * n :=
  (b.board c).isLt

theorem exists_tile (b : Board n) {t : ℕ} (ht : t < n * n) : ∃ c, b.tile c = t :=
  ⟨b.board.symm ⟨t, ht⟩, by simp [Board.tile]⟩

theorem tile_swapAndCreate : (b.swapAndCreate p q).tile c = b.tile (Equiv.swap p q c) :=
  rfl

@[simp] theorem tile_swapAndCreate_left : (b.swapAndCreate p q).tile p = b.tile q := by
  rw [tile_swapAndCreate, Equiv.swap_apply_left]

@[simp] theorem tile_swapAndCreate_right : (b.swapAndCreate p q).tile q = b.tile p := by
  rw [tile_swapAndCreate, Equiv.swap_apply_right]

theorem tile_swapAndCreate_of_ne (hp : c ≠ p) (hq : c ≠ q) :
    (b.swapAndCreate p q).tile c = b.tile c := by
  rw [tile_swapAndCreate, Equiv.swap_apply_of_ne_of_ne hp hq]

@[simp] theorem swapAndCreate_swapAndCreate :
    (b.swapAndCreate p q).swapAndCreate p q = b := by
  simp [Board.swapAndCreate, ← Equiv.trans_assoc]

theorem swapAndCreate_comm : b.swapAndCreate p q = b.swapAndCreate q p := by
  rw [Board.swapAndCreate, Board.swapAndCreate, Equiv.swap_comm]

theorem Adjacent.symm (h : Adjacent p q) : Adjacent q p := by
  unfold Adjacent at *
  omega

theorem Adjacent.ne (h : Adjacent p q) : p ≠ q := by
  rintro rfl
  unfold Adjacent at h
  omega

theorem Move.symm (h : Move b b') : Move b' b := by
  obtain ⟨z, c, hz, hadj, rfl⟩ := h
  refine ⟨c, z, ?_, hadj.symm, ?_⟩
  · rw [tile_swapAndCreate_right, hz]
  · rw [swapAndCreate_comm (p := c), swapAndCreate_swapAndCreate]

/-! ## The searches for a cell -/

theorem tile_of_findInRow {P : ℕ → Bool} {columns : List (Fin n)} {r : Fin n}
    (h : b.findInRow P columns r = some c) : c.1 = r ∧ P (b.tile c) = true := by
  unfold Board.findInRow at h
  obtain ⟨j, hj, rfl⟩ := Option.map_eq_some_iff.mp h
  exact ⟨rfl, List.find?_some (p := fun j => P (b.tile (r, j))) hj⟩

theorem exists_findInRow {P : ℕ → Bool} {columns : List (Fin n)} (hc : c.2 ∈ columns)
    (hP : P (b.tile c) = true) : ∃ c', b.findInRow P columns c.1 = some c' := by
  have hsome : (columns.find? fun j => P (b.tile (c.1, j))).isSome = true :=
    List.find?_isSome.mpr ⟨c.2, hc, hP⟩
  obtain ⟨j, hj⟩ := Option.isSome_iff_exists.mp hsome
  exact ⟨(c.1, j), by rw [Board.findInRow, hj]; rfl⟩

/-- The search for the blank finds it. -/
theorem blank_of_tile (hz : b.tile z = 0) : b.blank = some z := by
  have hsome : b.blank.isSome = true := by
    obtain ⟨c, hc⟩ := exists_findInRow (b := b) (P := (· = 0)) (List.mem_finRange z.2) (by simp [hz])
    exact List.findSome?_isSome_iff.mpr ⟨z.1, List.mem_finRange z.1, by rw [hc]; rfl⟩
  obtain ⟨c, hc⟩ := Option.isSome_iff_exists.mp hsome
  obtain ⟨r, -, hr⟩ := List.exists_of_findSome?_eq_some hc
  have hblank : b.tile c = 0 := by simpa using (tile_of_findInRow hr).2
  rw [hc, tile_injective b (hblank.trans hz.symm)]

theorem tile_of_blank (hz : b.blank = some z) : b.tile z = 0 := by
  obtain ⟨r, -, hr⟩ := List.exists_of_findSome?_eq_some hz
  simpa using (tile_of_findInRow hr).2

/-- `neighbors` lists the boards one move away. -/
theorem mem_neighbors_iff : b' ∈ b.neighbors ↔ Move b b' := by
  unfold Board.neighbors
  cases hz : b.blank with
  | none =>
    simp only [List.not_mem_nil, false_iff]
    rintro ⟨z, c, hz', -, -⟩
    simp [blank_of_tile hz'] at hz
  | some z =>
    obtain ⟨i, j⟩ := z
    simp only [List.mem_append, List.mem_dite_nil_right, List.mem_singleton]
    constructor
    · have hblank := tile_of_blank hz
      rintro (((⟨h, rfl⟩ | ⟨h, rfl⟩) | ⟨h, rfl⟩) | ⟨h, rfl⟩)
      · refine ⟨_, _, hblank, ?_, rfl⟩
        exact Or.inl ⟨rfl, Or.inr (Nat.sub_add_cancel h)⟩
      · refine ⟨_, _, hblank, ?_, rfl⟩
        exact Or.inl ⟨rfl, Or.inl rfl⟩
      · refine ⟨_, _, hblank, ?_, rfl⟩
        exact Or.inr ⟨rfl, Or.inr (Nat.sub_add_cancel h)⟩
      · refine ⟨_, _, hblank, ?_, rfl⟩
        exact Or.inr ⟨rfl, Or.inl rfl⟩
    · rintro ⟨z, ⟨⟨r, hr⟩, ⟨k, hk⟩⟩, hz', hadj, rfl⟩
      obtain rfl : (i, j) = z := Option.some.inj (hz.symm.trans (blank_of_tile hz'))
      obtain ⟨i, hi⟩ := i
      obtain ⟨j, hj⟩ := j
      simp only [Adjacent, Fin.mk.injEq] at hadj
      rcases hadj with ⟨rfl, rfl | rfl⟩ | ⟨rfl, rfl | rfl⟩
      · exact Or.inl (Or.inl (Or.inr ⟨by simp; omega, rfl⟩))
      · exact Or.inl (Or.inl (Or.inl ⟨Nat.succ_pos r, rfl⟩))
      · exact Or.inr ⟨by simp; omega, rfl⟩
      · exact Or.inl (Or.inr ⟨Nat.succ_pos k, rfl⟩)

theorem length_dite_singleton_le {α : Type} {P : Prop} [Decidable P] (f : P → α) :
    (if h : P then [f h] else []).length ≤ 1 := by
  split <;> simp

theorem length_neighbors_le (b : Board n) : b.neighbors.length ≤ 4 := by
  unfold Board.neighbors
  split
  · exact Nat.zero_le _
  · simp only [List.length_append]
    exact Nat.add_le_add (Nat.add_le_add (Nat.add_le_add (length_dite_singleton_le _)
      (length_dite_singleton_le _)) (length_dite_singleton_le _)) (length_dite_singleton_le _)

/-! ## The Manhattan distance -/

/-- The distance of tile `t` in cell `c` from its place. -/
def homeDistance (t : ℕ) (c : Cell n) : ℕ :=
  if t = 0 then 0
  else (((t : ℤ) - 1) / n - (c.1 : ℕ)).natAbs + (((t : ℤ) - 1) % n - (c.2 : ℕ)).natAbs

theorem foldl_add_if {α : Type} (xs : List α) (P : α → Prop) [DecidablePred P] (f : α → ℕ)
    (k : ℕ) : xs.foldl (fun k x => if P x then k else k + f x) k =
      k + (xs.map fun x => if P x then 0 else f x).sum := by
  induction xs generalizing k with
  | nil => rfl
  | cons x xs ih =>
    rw [List.foldl_cons, ih, List.map_cons, List.sum_cons]
    split <;> omega

theorem manhattan_eq_sum (b : Board n) :
    b.manhattan = ∑ c : Cell n, homeDistance (b.tile c) c := by
  calc b.manhattan
      = ((List.finRange (n * n)).map fun i =>
          homeDistance (b.tile (Board.cellAt i)) (Board.cellAt i)).sum := by
        exact (foldl_add_if _ (fun i => b.tile (Board.cellAt i) = 0) _ 0).trans (Nat.zero_add _)
    _ = ∑ i : Fin (n * n), homeDistance (b.tile (Board.cellAt i)) (Board.cellAt i) :=
        (Fin.sum_univ_def _).symm
    _ = ∑ c : Cell n, homeDistance (b.tile c) c :=
        finProdFinEquiv.symm.sum_comp fun c : Cell n => homeDistance (b.tile c) c

/-- Moving a tile by one cell changes its distance by at most one. -/
theorem homeDistance_le (t : ℕ) (h : Adjacent p q) : homeDistance t p ≤ homeDistance t q + 1 := by
  unfold homeDistance
  split
  · exact Nat.zero_le _
  · unfold Adjacent at h
    omega

/-- A move shortens the Manhattan distance by at most one. -/
theorem manhattan_le_of_move (h : Move b b') : b.manhattan ≤ b'.manhattan + 1 := by
  obtain ⟨z, c, hz, hadj, rfl⟩ := h
  have hc : c ∈ Finset.univ.erase z := Finset.mem_erase.mpr ⟨hadj.ne.symm, Finset.mem_univ c⟩
  have hrest : ∑ x ∈ (Finset.univ.erase z).erase c, homeDistance (b.tile x) x =
      ∑ x ∈ (Finset.univ.erase z).erase c, homeDistance ((b.swapAndCreate z c).tile x) x := by
    refine Finset.sum_congr rfl fun x hx => ?_
    rw [Finset.mem_erase, Finset.mem_erase] at hx
    rw [tile_swapAndCreate_of_ne hx.2.1 hx.1]
  have hzero : ∀ x : Cell n, homeDistance 0 x = 0 := fun x => if_pos rfl
  have hmoved := homeDistance_le (b.tile c) hadj.symm
  rw [manhattan_eq_sum, manhattan_eq_sum, ← Finset.add_sum_erase _ _ (Finset.mem_univ z),
    ← Finset.add_sum_erase _ _ hc, hrest, ← Finset.add_sum_erase Finset.univ _ (Finset.mem_univ z),
    ← Finset.add_sum_erase (Finset.univ.erase z) _ hc, tile_swapAndCreate_left,
    tile_swapAndCreate_right, hz, hzero, hzero]
  omega

/-- Every tile of the goal board is in its place. -/
theorem manhattan_of_goal (h : IsGoalBoard b) : b.manhattan = 0 := by
  have hplace : ∀ i : Fin (n * n), homeDistance (b.tile (Board.cellAt i)) (Board.cellAt i) = 0 := by
    intro i
    rw [h i]
    split
    · rfl
    · simp [homeDistance, Board.cellAt, Fin.divNat, Fin.modNat]
  rw [manhattan_eq_sum, ← finProdFinEquiv.symm.sum_comp]
  exact Finset.sum_eq_zero fun i _ => hplace i

/-! ## The Hamming distance -/

theorem foldl_count {α : Type} (xs : List α) (P : α → Prop) [DecidablePred P] (k : ℤ) :
    xs.foldl (fun k x => if P x then k + 1 else k) k = k + xs.countP fun x => P x := by
  induction xs generalizing k with
  | nil => simp
  | cons x xs ih =>
    rw [List.foldl_cons, ih, List.countP_cons]
    split <;> simp_all
    omega

/-- Among numbers below `m` the last one never equals `m`, so exactly one of
them differs from its index plus one when all others agree. -/
theorem countP_eq_one_iff {m : ℕ} (f : Fin m → ℕ) (hf : ∀ i, f i < m) (hm : 0 < m) :
    (List.finRange m).countP (fun i => f i ≠ i + 1) = 1 ↔
      ∀ i : Fin m, i.val + 1 ≠ m → f i = i + 1 := by
  obtain _ | m := m
  · exact absurd hm (lt_irrefl 0)
  have hlast : f (Fin.last m) ≠ m + 1 := (hf _).ne
  rw [List.finRange_succ_last, List.countP_append, List.countP_map]
  simp only [List.countP_singleton, Fin.val_last, decide_eq_true hlast, if_true]
  rw [Nat.add_eq_right, List.countP_eq_zero]
  constructor
  · intro h i hi
    have hi' : i.val < m := by omega
    have := h ⟨i, hi'⟩ (List.mem_finRange _)
    simpa using this
  · intro h i _
    have := h i.castSucc (by simp; omega)
    simpa using this

theorem isGoal_iff (hn : 0 < n) : b.isGoal = true ↔ IsGoalBoard b := by
  have hpos : 0 < n * n := Nat.mul_pos hn hn
  have hcount : b.hamming =
      -1 + (List.finRange (n * n)).countP fun i => b.tile (Board.cellAt i) ≠ i + 1 :=
    foldl_count _ _ _
  have hone : b.isGoal = true ↔
      (List.finRange (n * n)).countP (fun i => b.tile (Board.cellAt i) ≠ i + 1) = 1 := by
    rw [Board.isGoal, decide_eq_true_eq, hcount]
    omega
  rw [hone, countP_eq_one_iff (fun i => b.tile (Board.cellAt i)) (fun i => tile_lt b _) hpos]
  constructor
  · intro h i
    split
    · rename_i hi
      by_contra hne
      obtain ⟨t, ht⟩ : ∃ t, b.tile (Board.cellAt i) = t + 1 := Nat.exists_eq_succ_of_ne_zero hne
      have hlt := tile_lt b (Board.cellAt i)
      have hsame : b.tile (Board.cellAt ⟨t, by omega⟩) = b.tile (Board.cellAt i) := by
        rw [h _ (by simp; omega), ht]
      have hcell := finProdFinEquiv.symm.injective (tile_injective b hsame)
      have := congrArg Fin.val hcell
      simp at this
      omega
    · exact h i ‹_›
  · intro h i hi
    rw [h i, if_neg hi]

/-- The goal board of a dimension. -/
def Board.goal (n : ℕ) : Board n := ⟨finProdFinEquiv.trans (finRotate (n * n))⟩

theorem val_finRotate {k : ℕ} (i : Fin k) :
    (finRotate k i).val = if i.val + 1 = k then 0 else i.val + 1 := by
  obtain _ | m := k
  · exact i.elim0
  · rw [coe_finRotate]
    simp only [Fin.ext_iff, Fin.val_last, Nat.add_right_cancel_iff]

theorem isGoalBoard_goal (n : ℕ) : IsGoalBoard (Board.goal n) := by
  intro i
  rw [← val_finRotate]
  exact congrArg (fun j => (finRotate (n * n) j).val) (finProdFinEquiv.apply_symm_apply i)

end Courses.Puzzle

/-!
# The parity of a board

The sign of a board's permutation and the colour of its blank's cell on a
chessboard both flip with every move, so their product stays. An exchange of
two tiles flips the sign alone, so at most one of a board and its twin reaches
the goal.
-/

namespace Courses.Puzzle

variable {n : ℕ} {b b' : Board n} {p q z z' : Cell n}

/-- A sequence of legal moves. -/
def Reaches (b b' : Board n) : Prop := Relation.ReflTransGen Move b b'

theorem Reaches.symm (h : Reaches b b') : Reaches b' b := by
  induction h with
  | refl => exact .refl
  | tail _ hmove ih => exact ih.head hmove.symm

theorem Reaches.trans {b₁ b₂ b₃ : Board n} (h : Reaches b₁ b₂) (h' : Reaches b₂ b₃) :
    Reaches b₁ b₃ :=
  Relation.ReflTransGen.trans h h'

/-- The sign of a board as a permutation of its cells. -/
def Board.sign (b : Board n) : ℤˣ := Equiv.Perm.sign (b.board.trans finProdFinEquiv.symm)

/-- The colour of a cell on a chessboard. -/
def colour (c : Cell n) : ℤˣ := (-1) ^ (c.1.val + c.2.val)

theorem sign_swapAndCreate (h : p ≠ q) : (b.swapAndCreate p q).sign = -b.sign := by
  have hmul : ((Equiv.swap p q).trans b.board).trans finProdFinEquiv.symm =
      (b.board.trans finProdFinEquiv.symm : Equiv.Perm (Cell n)) * Equiv.swap p q := rfl
  rw [Board.sign, Board.swapAndCreate, hmul, Equiv.Perm.sign_mul, Equiv.Perm.sign_swap h,
    mul_neg_one]
  rfl

theorem colour_of_adjacent (h : Adjacent p q) : colour q = -colour p := by
  unfold colour
  rcases h with ⟨h2, h1 | h1⟩ | ⟨h1, h2 | h2⟩
  · rw [← h1, h2, Nat.add_right_comm, pow_succ, mul_neg_one]
  · rw [← h1, h2, Nat.add_right_comm, pow_succ, mul_neg_one, neg_neg]
  · rw [← h2, h1, ← Nat.add_assoc, pow_succ, mul_neg_one]
  · rw [← h2, h1, ← Nat.add_assoc, pow_succ, mul_neg_one, neg_neg]

theorem parity_of_move (h : Move b b') (hz : b.tile z = 0) (hz' : b'.tile z' = 0) :
    b'.sign * colour z' = b.sign * colour z := by
  obtain ⟨z₁, c, hz₁, hadj, rfl⟩ := h
  obtain rfl : z = z₁ := tile_injective b (hz.trans hz₁.symm)
  obtain rfl : z' = c := tile_injective _ (hz'.trans (tile_swapAndCreate_right.trans hz₁).symm)
  rw [sign_swapAndCreate hadj.ne, colour_of_adjacent hadj, neg_mul_neg]

/-- Moves keep the parity of a board. -/
theorem Reaches.parity (h : Reaches b b') (hz : b.tile z = 0) (hz' : b'.tile z' = 0) :
    b'.sign * colour z' = b.sign * colour z := by
  induction h generalizing z' with
  | refl =>
    obtain rfl : z = z' := tile_injective b (hz.trans hz'.symm)
    rfl
  | @tail b₁ b₂ _ hmove ih =>
    obtain ⟨z₁, hz₁⟩ := exists_tile b₁ (Nat.zero_lt_of_lt (tile_lt b₁ z'))
    exact (parity_of_move hmove hz₁ hz').trans (ih hz₁)

theorem IsGoalBoard.unique (h : IsGoalBoard b) (h' : IsGoalBoard b') : b = b' := by
  have htile : ∀ c, b.tile c = b'.tile c := by
    intro c
    obtain ⟨i, rfl⟩ := finProdFinEquiv.symm.surjective c
    exact (h i).trans (h' i).symm
  have hboard : b.board = b'.board := Equiv.ext fun c => Fin.ext (htile c)
  cases b
  cases b'
  exact congrArg Board.mk hboard

/-- An exchange of two tiles leads to a board of the other class. -/
theorem not_reaches_swapAndCreate (hpq : p ≠ q) (hp : b.tile p ≠ 0) (hq : b.tile q ≠ 0) :
    ¬Reaches b (b.swapAndCreate p q) := by
  intro h
  obtain ⟨z, hz⟩ := exists_tile b (Nat.zero_lt_of_lt (tile_lt b p))
  have hz' : (b.swapAndCreate p q).tile z = 0 := by
    rw [tile_swapAndCreate_of_ne (by rintro rfl; exact hp hz) (by rintro rfl; exact hq hz), hz]
  have hparity := h.parity hz hz'
  rw [sign_swapAndCreate hpq, neg_mul] at hparity
  exact neg_units_ne_self _ hparity

end Courses.Puzzle
