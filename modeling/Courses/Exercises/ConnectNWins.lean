import Courses.Exercises.ConnectN

/-!
# Wins of Connect N

`check_win` looks for a line of pieces through the last one: along its row, along its column and
along the two diagonals that it is on.
-/
namespace Courses.Exercises.ConnectN

/-! ## The scans -/

/-- One round of the scan of a row or a column: the longest run so far and the current one. -/
def countPiece (player : Piece) (x : ℕ × ℕ) (piece : Piece) : ℕ × ℕ :=
  let (maxConsec, curConsec) := x
  if piece = player then
    if curConsec + 1 > maxConsec then (curConsec + 1, curConsec + 1)
    else (maxConsec, curConsec + 1)
  else (maxConsec, 0)

def checkWinRow (h : Heap) (board : Board) (maxRows maxCols numConnect : ℕ) (row : ℤ)
    (player : Piece) : Option Bool := do
  if 0 ≤ row ∧ row < maxRows then
    let x ← (List.range maxCols).foldlM
      (fun x (col : ℕ) => do return countPiece player x (← getPiece h board row col)) (0, 0)
    return decide (x.1 ≥ numConnect)
  else none

/-- The rows are counted up to `max_cols`. -/
def checkWinColumn (h : Heap) (board : Board) (_maxRows maxCols numConnect : ℕ) (col : ℤ)
    (player : Piece) : Option Bool := do
  if 0 ≤ col ∧ col < maxCols then
    let x ← (List.range maxCols).foldlM
      (fun x (row : ℕ) => do return countPiece player x (← getPiece h board row col)) (0, 0)
    return decide (x.1 ≥ numConnect)
  else none

/-- The top left end of the diagonal. -/
def topLeft : ℕ → ℕ → ℕ × ℕ
  | row + 1, col + 1 => topLeft row col
  | row, col => (row, col)

/-- The top right end of the other diagonal. -/
def topRight (maxCols : ℕ) : ℕ → ℕ → ℕ × ℕ
  | row + 1, col => if col + 1 < maxCols then topRight maxCols row (col + 1) else (row + 1, col)
  | 0, col => (0, col)

/-- A loop down a diagonal, while `inside` holds of the column, where `n` rows are left before
`max_rows`. -/
def scanDiagonal (h : Heap) (board : Board) (numConnect : ℕ) (player : Piece) (inside : ℤ → Bool)
    (step : ℤ) : ℕ → ℤ → ℤ → ℕ → Option Bool
  | 0, _, _, _ => some false
  | n + 1, row, col, adjacent =>
    if inside col then do
      let piece ← getPiece h board row col
      let adjacent' := if piece = player then adjacent + 1 else 0
      if adjacent' ≥ numConnect then return true
      else scanDiagonal h board numConnect player inside step n (row + 1) (col + step) adjacent'
    else some false

def checkWinDiagonal (h : Heap) (board : Board) (maxRows maxCols numConnect row col : ℕ)
    (player : Piece) : Option Bool := do
  let (rowLeft, colLeft) := topLeft row col
  let left ← scanDiagonal h board numConnect player (fun j => j < maxCols) 1 (maxRows - rowLeft)
    rowLeft colLeft 0
  if left then return true
  else
    let (rowRight, colRight) := topRight maxCols row col
    scanDiagonal h board numConnect player (fun j => 0 ≤ j) (-1) (maxRows - rowRight)
      rowRight colRight 0

def checkWin (h : Heap) (board : Board) (maxRows maxCols numConnect row col : ℕ)
    (player : Piece) : Option Bool := do
  let diagonalWin ← checkWinDiagonal h board maxRows maxCols numConnect row col player
  if diagonalWin then return true
  else if ← checkWinRow h board maxRows maxCols numConnect row player then return true
  else checkWinColumn h board maxRows maxCols numConnect col player

/-! ## Lines -/

inductive Direction
  | row
  | column
  | diagonal
  | antidiagonal
  deriving DecidableEq

def Direction.down : Direction → ℤ
  | row => 0
  | _ => 1

def Direction.right : Direction → ℤ
  | column => 0
  | antidiagonal => -1
  | _ => 1

section Lines

variable (rows cols n : ℕ) (c : ℤ → ℤ → Piece) (player : Piece)

/-- `n` consecutive pieces of the player, from a first one on. -/
def IsLine (d : Direction) (i j : ℤ) : Prop :=
  ∀ k : ℕ, k < n → OnBoard rows cols (i + k * d.down) (j + k * d.right) ∧
    c (i + k * d.down) (j + k * d.right) = player

def HasLine : Prop := ∃ d i j, IsLine rows cols n c player d i j

end Lines

/-- The pieces of a board, as `get_piece` returns them. -/
def pieceAt (h : Heap) (board : Board) (i j : ℤ) : Piece := (getPiece h board i j).getD "-"

/-! ## Runs in a list -/

section Runs

variable {n : ℕ} {player : Piece}

/-- `n` consecutive pieces of the player. -/
def HasRun (n : ℕ) (player : Piece) (ps : List Piece) : Prop :=
  ∃ i, ∀ k < n, ps[i + k]? = some player

theorem hasRun_replicate {adjacent : ℕ} (h : n ≤ adjacent) (ps : List Piece) :
    HasRun n player (List.replicate adjacent player ++ ps) := by
  refine ⟨0, ?_⟩
  intro k hk
  rw [List.getElem?_append_left (by simp; omega), List.getElem?_replicate, if_pos (by omega)]

/-- A piece of somebody else ends what was before it. -/
theorem hasRun_other {adjacent : ℕ} (hlt : adjacent < n) {p : Piece} (hp : p ≠ player)
    (ps : List Piece) :
    HasRun n player (List.replicate adjacent player ++ p :: ps) ↔ HasRun n player ps := by
  have hshift : ∀ i, (List.replicate adjacent player ++ p :: ps)[adjacent + 1 + i]? = ps[i]? := by
    intro i
    rw [List.getElem?_append_right (by simp; omega), List.length_replicate,
      show adjacent + 1 + i - adjacent = i + 1 by omega, List.getElem?_cons_succ]
  constructor
  · intro h
    obtain ⟨i, hi⟩ := h
    by_cases hle : i ≤ adjacent
    · have hpiece := hi (adjacent - i) (by omega)
      rw [show i + (adjacent - i) = adjacent by omega, List.getElem?_append_right (by simp)] at hpiece
      simp at hpiece
      exact absurd hpiece hp
    · refine ⟨i - (adjacent + 1), ?_⟩
      intro k hk
      rw [← hshift, show adjacent + 1 + (i - (adjacent + 1) + k) = i + k by omega]
      exact hi k hk
  · intro h
    obtain ⟨i, hi⟩ := h
    refine ⟨adjacent + 1 + i, ?_⟩
    intro k hk
    rw [Nat.add_assoc, hshift]
    exact hi k hk

theorem not_hasRun_replicate {adjacent : ℕ} (hlt : adjacent < n) :
    ¬ HasRun n player (List.replicate adjacent player ++ []) := by
  intro h
  obtain ⟨i, hi⟩ := h
  have hlast := hi (n - 1) (by omega)
  rw [List.append_nil, List.getElem?_replicate, if_neg (by omega)] at hlast
  cases hlast

theorem replicate_append_player (adjacent : ℕ) (ps : List Piece) :
    List.replicate adjacent player ++ player :: ps = List.replicate (adjacent + 1) player ++ ps := by
  rw [List.replicate_succ', List.append_assoc]
  rfl

/-- The longest run, where a run of `x.2` pieces has just been counted. -/
theorem foldl_countPiece (ps : List Piece) : ∀ x : ℕ × ℕ, x.2 ≤ x.1 →
    ((ps.foldl (countPiece player) x).1 ≥ n ↔
      n ≤ x.1 ∨ HasRun n player (List.replicate x.2 player ++ ps)) := by
  induction ps with
  | nil =>
    intro x hx
    constructor
    · intro h
      exact .inl h
    · intro h
      cases h with
      | inl h => exact h
      | inr h =>
        by_contra hlt
        exact not_hasRun_replicate (hx.trans_lt (Nat.lt_of_not_le hlt)) h
  | cons p ps ih =>
    intro x hx
    obtain ⟨maxConsec, curConsec⟩ := x
    rw [List.foldl_cons]
    by_cases hp : p = player
    · subst hp
      rw [replicate_append_player]
      by_cases hmax : curConsec + 1 > maxConsec
      · rw [countPiece, if_pos rfl, if_pos hmax, ih _ le_rfl]
        constructor
        · intro h
          cases h with
          | inl h => exact .inr (hasRun_replicate h ps)
          | inr h => exact .inr h
        · intro h
          cases h with
          | inl h => exact .inl (h.trans (Nat.le_of_lt hmax))
          | inr h => exact .inr h
      · rw [countPiece, if_pos rfl, if_neg hmax, ih _ (by simp at hmax ⊢; omega)]
    · rw [countPiece, if_neg hp, ih _ (Nat.zero_le _)]
      by_cases hmax : n ≤ maxConsec
      · simp [hmax]
      · rw [hasRun_other (show curConsec < n by simp at hx; omega) hp]
        simp

end Runs

/-! ## What the scans find -/

section Scans

variable {rows cols n : ℕ} {h : Heap} {board : Board} {c : ℤ → ℤ → Piece} {player : Piece}

theorem foldlM_countPiece {get : ℕ → Option Piece} {f : ℕ → Piece} {ks : List ℕ}
    (hget : ∀ k ∈ ks, get k = some (f k)) : ∀ x : ℕ × ℕ,
    ks.foldlM (fun x k => do return countPiece player x (← get k)) x =
      some ((ks.map f).foldl (countPiece player) x) := by
  induction ks with
  | nil =>
    intro x
    rfl
  | cons k ks ih =>
    intro x
    rw [List.foldlM_cons, hget k List.mem_cons_self]
    exact ih (fun k' hk' => hget k' (List.mem_cons_of_mem _ hk')) _

/-- A scan over the pieces of a row or of a column. -/
theorem scan_ok (hn : 0 < n) {get : ℕ → Option Piece} {f : ℕ → Piece} {len : ℕ}
    (hget : ∀ k ∈ List.range len, get k = some (f k)) :
    ∃ b, (do
        let x ← (List.range len).foldlM
          (fun x k => do return countPiece player x (← get k)) (0, 0)
        return decide (x.1 ≥ n)) = some b ∧
      (b = true ↔ ∃ i, ∀ k < n, i + k < len ∧ f (i + k) = player) := by
  have hcell : ∀ i, ((List.range len).map f)[i]? = some player ↔ i < len ∧ f i = player := by
    intro i
    rw [List.getElem?_map, Option.map_eq_some_iff]
    simp [List.getElem?_range, List.getElem?_eq_some_iff]
  refine ⟨decide ((((List.range len).map f).foldl (countPiece player) (0, 0)).1 ≥ n), ?_, ?_⟩
  · rw [foldlM_countPiece hget]
    rfl
  · rw [decide_eq_true_iff, foldl_countPiece _ _ le_rfl]
    constructor
    · intro h
      obtain ⟨i, hi⟩ := h.resolve_left (by simp; omega)
      exact ⟨i, fun k hk => (hcell _).mp (hi k hk)⟩
    · intro h
      obtain ⟨i, hi⟩ := h
      exact .inr ⟨i, fun k hk => (hcell _).mpr (hi k hk)⟩

theorem isLine_row (hn : 0 < n) {row : ℤ} (hrow : 0 ≤ row ∧ row < rows) :
    (∃ i : ℕ, ∀ k < n, i + k < cols ∧ c row (i + k : ℕ) = player) ↔
      ∃ j, IsLine rows cols n c player .row row j := by
  constructor
  · intro h
    obtain ⟨j, hj⟩ := h
    refine ⟨j, ?_⟩
    intro k hk
    obtain ⟨hlt, hpiece⟩ := hj k hk
    have hcol : (j : ℤ) + k * 1 = ((j + k : ℕ) : ℤ) := by push_cast; ring
    simp only [Direction.down, Direction.right, mul_zero, add_zero, hcol]
    exact ⟨⟨hrow.1, hrow.2, by omega, by omega⟩, hpiece⟩
  · intro h
    obtain ⟨j, hj⟩ := h
    have hfirst := (hj 0 hn).1
    simp only [Direction.right, OnBoard] at hfirst
    lift j to ℕ using (by omega)
    refine ⟨j, ?_⟩
    intro k hk
    obtain ⟨hboard, hpiece⟩ := hj k hk
    have hcol : (j : ℤ) + k * 1 = ((j + k : ℕ) : ℤ) := by push_cast; ring
    simp only [Direction.down, Direction.right, mul_zero, add_zero, hcol] at hboard hpiece
    exact ⟨by have hlast := hboard.2.2.2; omega, hpiece⟩

/-- The lines of a column that end above row `len`. -/
theorem isLine_column (hn : 0 < n) {len : ℕ} (hlen : len ≤ rows) {col : ℤ}
    (hcol : 0 ≤ col ∧ col < cols) :
    (∃ i : ℕ, ∀ k < n, i + k < len ∧ c (i + k : ℕ) col = player) ↔
      ∃ i, IsLine rows cols n c player .column i col ∧ i + n ≤ len := by
  constructor
  · intro h
    obtain ⟨i, hi⟩ := h
    refine ⟨i, ?_, ?_⟩
    · intro k hk
      obtain ⟨hlt, hpiece⟩ := hi k hk
      have hrow : (i : ℤ) + k * 1 = ((i + k : ℕ) : ℤ) := by push_cast; ring
      simp only [Direction.down, Direction.right, mul_zero, add_zero, hrow]
      exact ⟨⟨by omega, by omega, hcol.1, hcol.2⟩, hpiece⟩
    · have hlast := (hi (n - 1) (by omega)).1
      omega
  · intro h
    obtain ⟨i, hi, hend⟩ := h
    have hfirst := (hi 0 hn).1
    simp only [Direction.down, OnBoard] at hfirst
    lift i to ℕ using (by omega)
    refine ⟨i, ?_⟩
    intro k hk
    obtain ⟨hboard, hpiece⟩ := hi k hk
    have hrow : (i : ℤ) + k * 1 = ((i + k : ℕ) : ℤ) := by push_cast; ring
    simp only [Direction.down, Direction.right, mul_zero, add_zero, hrow] at hboard hpiece
    exact ⟨by omega, hpiece⟩

theorem checkWinRow_ok (hs : Shows rows cols h board c) (hn : 0 < n) {row : ℤ}
    (hrow : 0 ≤ row ∧ row < rows) :
    ∃ b, checkWinRow h board rows cols n row player = some b ∧
      (b = true ↔ ∃ j, IsLine rows cols n c player .row row j) := by
  have hget : ∀ col ∈ List.range cols, getPiece h board row (col : ℤ) = some (c row col) := by
    intro col hcol
    have hlt := List.mem_range.mp hcol
    exact hs.getPiece ⟨hrow.1, hrow.2, by omega, by omega⟩
  obtain ⟨b, hrun, hb⟩ := @scan_ok n player hn _ _ _ hget
  refine ⟨b, ?_, ?_⟩
  · rw [checkWinRow, if_pos hrow, ← hrun]
  · rw [hb, isLine_row hn hrow]

/-- The scan of a column on a board that has at least as many rows as columns. -/
theorem checkWinColumn_ok (hs : Shows rows cols h board c) (hn : 0 < n) (hle : cols ≤ rows)
    {col : ℤ} (hcol : 0 ≤ col ∧ col < cols) :
    ∃ b, checkWinColumn h board rows cols n col player = some b ∧
      (b = true ↔ ∃ i, IsLine rows cols n c player .column i col ∧ i + n ≤ cols) := by
  have hget : ∀ row ∈ List.range cols, getPiece h board (row : ℤ) col = some (c row col) := by
    intro row hrow
    have hlt := List.mem_range.mp hrow
    exact hs.getPiece ⟨by omega, by omega, hcol.1, hcol.2⟩
  obtain ⟨b, hrun, hb⟩ := @scan_ok n player hn _ _ _ hget
  refine ⟨b, ?_, ?_⟩
  · rw [checkWinColumn, if_pos hcol, ← hrun]
  · rw [hb, isLine_column hn hle hcol]

theorem foldlM_countPiece_error {get : ℕ → Option Piece} {ks : List ℕ} {k : ℕ} (hk : k ∈ ks)
    (hget : get k = none) : ∀ x : ℕ × ℕ,
    ks.foldlM (fun x k => do return countPiece player x (← get k)) x = none := by
  induction ks with
  | nil => exact absurd hk List.not_mem_nil
  | cons k' ks ih =>
    intro x
    rw [List.foldlM_cons]
    cases hfirst : get k' with
    | none => rfl
    | some piece =>
      have hne : k ≠ k' := by
        rintro rfl
        rw [hget] at hfirst
        cases hfirst
      exact ih ((List.mem_cons.mp hk).resolve_left hne) _

/-- With more columns than rows the scan of a column leaves the board. -/
theorem checkWinColumn_error (hs : Shows rows cols h board c) (hlt : rows < cols) (col : ℤ) :
    checkWinColumn h board rows cols n col player = none := by
  have hout : getPiece h board (rows : ℤ) col = none := by
    rw [getPiece, item_natCast, List.getElem?_eq_none (by rw [hs.length])]
    rfl
  rw [checkWinColumn]
  split
  · rw [foldlM_countPiece_error (List.mem_range.mpr hlt) hout]
    rfl
  · rfl

/-! ## The diagonals -/

/-- The pieces on the way down a diagonal. -/
def ray (cols : ℕ) (c : ℤ → ℤ → Piece) (step : ℤ) : ℕ → ℤ → ℤ → List Piece
  | 0, _, _ => []
  | n + 1, row, col =>
    if 0 ≤ col ∧ col < cols then c row col :: ray cols c step n (row + 1) (col + step) else []

theorem ray_getElem? {step : ℤ} (hstep : step = 1 ∨ step = -1) (m : ℕ) :
    ∀ (row col : ℤ) (t : ℕ), 0 ≤ col ∧ col < cols →
      (ray cols c step m row col)[t]? =
        if t < m ∧ 0 ≤ col + t * step ∧ col + t * step < cols then
          some (c (row + t) (col + t * step))
        else none := by
  induction m with
  | zero =>
    intro row col t _
    simp [ray]
  | succ m ih =>
    intro row col t hcol
    rw [ray, if_pos hcol]
    cases t with
    | zero => simp [hcol]
    | succ t =>
      rw [List.getElem?_cons_succ]
      have hshift : col + step + t * step = col + (t + 1 : ℕ) * step := by push_cast; ring
      have hrow : row + 1 + t = row + (t + 1 : ℕ) := by push_cast; ring
      by_cases hnext : 0 ≤ col + step ∧ col + step < cols
      · rw [ih _ _ _ hnext, hshift, hrow]
        simp only [Nat.add_lt_add_iff_right]
      · have hnil : ray cols c step m (row + 1) (col + step) = [] := by
          cases m with
          | zero => rfl
          | succ m => rw [ray, if_neg hnext]
        rw [hnil, List.getElem?_nil, if_neg]
        push_cast
        cases hstep with
        | inl hstep =>
          subst hstep
          omega
        | inr hstep =>
          subst hstep
          omega

/-- A loop down a diagonal finds the runs of the pieces on its way. -/
theorem scanDiagonal_ok (hs : Shows rows cols h board c) {inside : ℤ → Bool} {step : ℤ} (m : ℕ) :
    ∀ (row col : ℤ) (adjacent : ℕ), 0 ≤ row → row + m = rows → adjacent < n →
      (∀ t : ℕ, inside (col + t * step) = true ↔
        0 ≤ col + t * step ∧ col + t * step < cols) →
      ∃ b, scanDiagonal h board n player inside step m row col adjacent = some b ∧
        (b = true ↔
          HasRun n player (List.replicate adjacent player ++ ray cols c step m row col)) := by
  induction m with
  | zero =>
    intro row col adjacent _ _ hlt _
    refine ⟨false, rfl, ?_⟩
    simp only [Bool.false_eq_true, false_iff]
    exact not_hasRun_replicate hlt
  | succ m ih =>
    intro row col adjacent hrow hrows hlt hinside
    have hhere := hinside 0
    simp only [Nat.cast_zero, zero_mul, add_zero] at hhere
    have hnext : ∀ t : ℕ, inside (col + step + t * step) = true ↔
        0 ≤ col + step + t * step ∧ col + step + t * step < cols := by
      intro t
      have hshift : col + step + t * step = col + (t + 1 : ℕ) * step := by push_cast; ring
      rw [hshift]
      exact hinside (t + 1)
    by_cases hcol : 0 ≤ col ∧ col < cols
    · have hpiece := hs.getPiece (show OnBoard rows cols row col by
        refine ⟨hrow, ?_, hcol⟩
        push_cast at hrows
        omega)
      have hrun : scanDiagonal h board n player inside step (m + 1) row col adjacent =
          if (if c row col = player then adjacent + 1 else 0) ≥ n then some true
          else scanDiagonal h board n player inside step m (row + 1) (col + step)
            (if c row col = player then adjacent + 1 else 0) := by
        rw [scanDiagonal, if_pos (hhere.mpr hcol), hpiece]
        rfl
      have hrest := fun adjacent' hlt' =>
        ih (row + 1) (col + step) adjacent' (by omega) (by push_cast at hrows ⊢; omega) hlt' hnext
      rw [hrun, ray, if_pos hcol]
      by_cases hplayer : c row col = player
      · rw [if_pos hplayer, hplayer, replicate_append_player]
        by_cases hlong : adjacent + 1 ≥ n
        · rw [if_pos hlong]
          exact ⟨true, rfl, by simp only [true_iff]; exact hasRun_replicate hlong _⟩
        · rw [if_neg hlong]
          exact hrest _ (by omega)
      · rw [if_neg hplayer, if_neg (by omega), hasRun_other hlt hplayer]
        have hzero := hrest 0 (by omega)
        simpa using hzero
    · have hout : inside col = false := by
        rw [← Bool.not_eq_true, hhere]
        exact hcol
      refine ⟨false, ?_, ?_⟩
      · rw [scanDiagonal, hout]
        rfl
      · rw [ray, if_neg hcol]
        simp only [Bool.false_eq_true, false_iff]
        exact not_hasRun_replicate hlt

theorem topLeft_eq (row : ℕ) : ∀ col,
    topLeft row col = (row - min row col, col - min row col) := by
  induction row with
  | zero =>
    intro col
    simp [topLeft]
  | succ row ih =>
    intro col
    cases col with
    | zero => simp [topLeft]
    | succ col =>
      rw [topLeft, ih]
      simp only [Prod.mk.injEq]
      omega

theorem topRight_eq (row : ℕ) : ∀ col, col < cols →
    topRight cols row col =
      (row - min row (cols - 1 - col), col + min row (cols - 1 - col)) := by
  induction row with
  | zero =>
    intro col _
    simp [topRight]
  | succ row ih =>
    intro col hcol
    rw [topRight]
    split
    · rw [ih _ (by omega)]
      simp only [Prod.mk.injEq]
      omega
    · simp only [Prod.mk.injEq]
      omega

/-- The runs on the way down a diagonal are the lines of the diagonal, if it starts at an edge. -/
theorem hasRun_ray (hn : 0 < n) {d : Direction} (hdown : d.down = 1)
    (hright : d.right = 1 ∨ d.right = -1) {m : ℕ} {row col : ℤ} (hrow : 0 ≤ row)
    (hrows : row + m = rows) (hcol : 0 ≤ col ∧ col < cols) :
    HasRun n player (ray cols c d.right m row col) ↔
      ∃ t : ℕ, IsLine rows cols n c player d (row + t) (col + t * d.right) := by
  have hcell : ∀ t : ℕ, (ray cols c d.right m row col)[t]? = some player ↔
      OnBoard rows cols (row + t) (col + t * d.right) ∧
        c (row + t) (col + t * d.right) = player := by
    intro t
    rw [ray_getElem? hright m row col t hcol]
    by_cases hin : t < m ∧ 0 ≤ col + t * d.right ∧ col + t * d.right < cols
    · rw [if_pos hin, Option.some.injEq]
      have hboard : OnBoard rows cols (row + t) (col + t * d.right) :=
        ⟨by omega, by omega, hin.2⟩
      simp [hboard]
    · rw [if_neg hin]
      simp only [reduceCtorEq, false_iff]
      intro h
      exact hin ⟨by have hlast := h.1.2.1; omega, h.1.2.2⟩
  have hpos : ∀ i k : ℕ, row + i + k * d.down = row + (i + k : ℕ) ∧
      col + i * d.right + k * d.right = col + (i + k : ℕ) * d.right := by
    intro i k
    rw [hdown]
    push_cast
    constructor <;> ring
  constructor
  · intro h
    obtain ⟨i, hi⟩ := h
    refine ⟨i, ?_⟩
    intro k hk
    rw [(hpos i k).1, (hpos i k).2]
    exact (hcell _).mp (hi k hk)
  · intro h
    obtain ⟨i, hi⟩ := h
    refine ⟨i, ?_⟩
    intro k hk
    have hline := hi k hk
    rw [(hpos i k).1, (hpos i k).2] at hline
    exact (hcell _).mpr hline

/-- Every line goes through the cell. -/
def Through (rows cols n : ℕ) (c : ℤ → ℤ → Piece) (player : Piece) (row col : ℤ) : Prop :=
  ∀ d i j, IsLine rows cols n c player d i j →
    ∃ k : ℕ, k < n ∧ i + k * d.down = row ∧ j + k * d.right = col

/-- The lines of a direction are on the diagonal that goes through the cell. -/
theorem exists_isLine_iff (hn : 0 < n) {row col : ℤ} (hthrough : Through rows cols n c player row col)
    {d : Direction} (hdown : d.down = 1) (hright : d.right = 1 ∨ d.right = -1) {m : ℕ}
    {top start : ℤ} (hrow : row = top + m) (hcol : col = start + m * d.right)
    (hstart : 0 ≤ start ∧ start < cols)
    (hedge : top ≤ 0 ∨ start - d.right < 0 ∨ cols ≤ start - d.right) :
    (∃ t : ℕ, IsLine rows cols n c player d (top + t) (start + t * d.right)) ↔
      ∃ i j, IsLine rows cols n c player d i j := by
  constructor
  · intro h
    obtain ⟨t, ht⟩ := h
    exact ⟨_, _, ht⟩
  · intro h
    obtain ⟨i, j, hline⟩ := h
    obtain ⟨k, hk, hi, hj⟩ := hthrough d i j hline
    have hboard := (hline 0 hn).1
    simp only [OnBoard, Nat.cast_zero, zero_mul, add_zero] at hboard
    rw [hdown] at hi
    have hle : k ≤ m := by
      cases hright with
      | inl hright =>
        rw [hright] at hedge hj hcol
        omega
      | inr hright =>
        rw [hright] at hedge hj hcol
        omega
    refine ⟨m - k, ?_⟩
    have hrow' : top + ((m - k : ℕ) : ℤ) = i := by omega
    have hcol' : start + ((m - k : ℕ) : ℤ) * d.right = j := by
      push_cast [Nat.cast_sub hle]
      linarith
    rw [hrow', hcol']
    exact hline

theorem checkWinDiagonal_ok (hs : Shows rows cols h board c) (hn : 0 < n) {row col : ℕ}
    (hrow : row < rows) (hcol : col < cols) (hthrough : Through rows cols n c player row col) :
    ∃ b, checkWinDiagonal h board rows cols n row col player = some b ∧
      (b = true ↔ (∃ i j, IsLine rows cols n c player .diagonal i j) ∨
        ∃ i j, IsLine rows cols n c player .antidiagonal i j) := by
  -- how far the first cells of the two diagonals are away
  generalize hm : min row col = m
  generalize hm' : min row (cols - 1 - col) = m'
  have hscan : ∀ (d : Direction) (inside : ℤ → Bool) (m start : ℕ), d.down = 1 →
      d.right = 1 ∨ d.right = -1 → m ≤ row → (col : ℤ) = start + m * d.right → start < cols →
      ((row : ℤ) - m ≤ 0 ∨ (start : ℤ) - d.right < 0 ∨ cols ≤ (start : ℤ) - d.right) →
      (∀ t : ℕ, inside (start + t * d.right) = true ↔
        0 ≤ start + t * d.right ∧ start + t * d.right < cols) →
      ∃ b, scanDiagonal h board n player inside d.right (rows - (row - m)) ((row - m : ℕ) : ℤ)
          start 0 = some b ∧ (b = true ↔ ∃ i j, IsLine rows cols n c player d i j) := by
    intro d inside m start hdown hright hle hend hstart hedge hinside
    obtain ⟨b, hrun, hb⟩ := scanDiagonal_ok hs (rows - (row - m)) ((row - m : ℕ) : ℤ) start 0
      (by omega) (by omega) hn hinside
    have hray := @hasRun_ray rows cols n c player hn d hdown hright (rows - (row - m))
      ((row - m : ℕ) : ℤ) start (by omega) (by omega) ⟨by omega, by omega⟩
    refine ⟨b, hrun, ?_⟩
    rw [hb, List.replicate_zero, List.nil_append, hray,
      exists_isLine_iff hn hthrough hdown hright (show (row : ℤ) = ((row - m : ℕ) : ℤ) + m by omega)
        hend ⟨by omega, by omega⟩ (by rw [Nat.cast_sub hle]; exact hedge)]
  have hleftInside : ∀ t : ℕ, decide (((col - m : ℕ) : ℤ) + t * 1 < cols) = true ↔
      0 ≤ ((col - m : ℕ) : ℤ) + t * 1 ∧ ((col - m : ℕ) : ℤ) + t * 1 < cols := by
    intro t
    rw [decide_eq_true_iff]
    omega
  have hrightInside : ∀ t : ℕ, decide (0 ≤ ((col + m' : ℕ) : ℤ) + t * -1) = true ↔
      0 ≤ ((col + m' : ℕ) : ℤ) + t * -1 ∧ ((col + m' : ℕ) : ℤ) + t * -1 < cols := by
    intro t
    rw [decide_eq_true_iff]
    omega
  obtain ⟨left, hleft, hleft'⟩ := hscan .diagonal (fun j => decide (j < (cols : ℤ))) m (col - m) rfl
    (.inl rfl) (by omega) (by simp only [Direction.right]; omega) (by omega)
    (by simp only [Direction.right]; omega) hleftInside
  obtain ⟨right, hright, hright'⟩ := hscan .antidiagonal (fun j => decide ((0 : ℤ) ≤ j)) m'
    (col + m') rfl (.inr rfl) (by omega) (by simp only [Direction.right]; omega) (by omega)
    (by simp only [Direction.right]; omega) hrightInside
  simp only [checkWinDiagonal, topLeft_eq, topRight_eq _ _ hcol, hm, hm']
  rw [show scanDiagonal h board n player (fun j => decide (j < (cols : ℤ))) 1
    (rows - (row - m)) ((row - m : ℕ) : ℤ) ((col - m : ℕ) : ℤ) 0 = some left from hleft]
  cases left with
  | true =>
    refine ⟨true, rfl, ?_⟩
    simp only [true_iff]
    exact .inl (hleft'.mp rfl)
  | false =>
    refine ⟨right, hright, ?_⟩
    rw [hright', ← hleft']
    simp

end Scans

/-! ## The last move -/

section LastMove

variable {rows cols n : ℕ} {h h' : Heap} {board board' : Board} {c : ℤ → ℤ → Piece}
  {player : Piece}

theorem Shows.pieceAt (hs : Shows rows cols h board c) {i j : ℤ} (hij : OnBoard rows cols i j) :
    pieceAt h board i j = c i j := by
  rw [ConnectN.pieceAt, hs.getPiece hij, Option.getD_some]

theorem Shows.isLine_pieceAt (hs : Shows rows cols h board c) (d : Direction) (i j : ℤ) :
    IsLine rows cols n (ConnectN.pieceAt h board) player d i j ↔
      IsLine rows cols n c player d i j := by
  constructor
  · intro hline k hk
    obtain ⟨hboard, hpiece⟩ := hline k hk
    exact ⟨hboard, by rw [← hs.pieceAt hboard, hpiece]⟩
  · intro hline k hk
    obtain ⟨hboard, hpiece⟩ := hline k hk
    exact ⟨hboard, by rw [hs.pieceAt hboard, hpiece]⟩

/-- A line that was not there before goes through the new piece. -/
theorem through_put (hno : ¬ HasLine rows cols n c player) (row col : ℤ) (p : Piece) :
    Through rows cols n (put c row col p) player row col := by
  intro d i j hline
  by_contra hmiss
  refine hno ⟨d, i, j, ?_⟩
  intro k hk
  obtain ⟨hboard, hpiece⟩ := hline k hk
  have hold : put c row col p (i + k * d.down) (j + k * d.right) =
      c (i + k * d.down) (j + k * d.right) := by
    rw [put, if_neg]
    intro hcell
    exact hmiss ⟨k, hk, hcell⟩
  exact ⟨hboard, by rw [← hold, hpiece]⟩

theorem isLine_pieceAt_eq (hs : Shows rows cols h board c) :
    IsLine rows cols n (ConnectN.pieceAt h board) player = IsLine rows cols n c player := by
  funext d i j
  exact propext (hs.isLine_pieceAt d i j)

/-- A move that is not refused puts the piece onto the board that it returns. -/
theorem InGame.landed (hi : InGame rows cols h board c) {col row : ℕ}
    (hmove : makeMove h board rows cols col player = some ((row : ℤ), h', board')) :
    row < rows ∧ col < cols ∧ Shows rows cols h' board' (put c row col player) := by
  obtain ⟨result, hrun, hmoved⟩ := makeMove_moved hi.shows hi.gravity col player
  obtain rfl : result = ((row : ℤ), h', board') := Option.some.inj (hrun.symm.trans hmove)
  have hne : emptyCells rows cols c col ≠ ∅ := by
    intro hempty
    have hrefused := hmoved.refused hempty
    simp only [Prod.mk.injEq] at hrefused
    omega
  obtain ⟨row', hgreatest⟩ := exists_isGreatest hne
  obtain ⟨hrow, hshows⟩ := hmoved.lands row' hgreatest
  obtain rfl : (row : ℤ) = row' := hrow
  have hboard := hgreatest.1.1
  simp only [OnBoard] at hboard
  exact ⟨by omega, by omega, hshows⟩

end LastMove

/-- What is asked of `check_win` after a move. -/
def Detects (rows cols n : ℕ) (h : Heap) (board : Board) (row col : ℕ) (player : Piece) : Prop :=
  ∃ b, checkWin h board rows cols n row col player = some b ∧
    (b = true ↔ HasLine rows cols n (pieceAt h board) player)

section Answer

variable {rows cols n : ℕ} {h : Heap} {board : Board} {c : ℤ → ℤ → Piece} {player : Piece}
  {row col : ℕ}

/-- A line that is no vertical one is found before the column is looked at. -/
theorem checkWin_of_line (hs : Shows rows cols h board c) (hn : 0 < n) (hrow : row < rows)
    (hcol : col < cols) (hthrough : Through rows cols n c player row col)
    (hline : ∃ d i j, d ≠ Direction.column ∧ IsLine rows cols n c player d i j) :
    checkWin h board rows cols n row col player = some true := by
  obtain ⟨diagonal, hrun, hdiagonal⟩ := checkWinDiagonal_ok hs hn hrow hcol hthrough
  obtain ⟨bRow, hrunRow, hbRow⟩ := @checkWinRow_ok rows cols n h board c player hs hn row (by omega)
  obtain ⟨d, i, j, hd, hline⟩ := hline
  rw [checkWin, hrun, Option.bind_eq_bind, Option.bind_some]
  cases diagonal with
  | true => rfl
  | false =>
    have hfound : bRow = true := by
      cases d with
      | row =>
        obtain ⟨k, -, hi, -⟩ := hthrough _ _ _ hline
        simp only [Direction.down, mul_zero, add_zero] at hi
        exact hbRow.mpr ⟨j, hi ▸ hline⟩
      | column => exact absurd rfl hd
      | diagonal => exact absurd (hdiagonal.mpr (.inl ⟨i, j, hline⟩)) (by simp)
      | antidiagonal => exact absurd (hdiagonal.mpr (.inr ⟨i, j, hline⟩)) (by simp)
    simp [hrunRow, hfound]

/-- Without such a line the answer is that of the column. -/
theorem checkWin_of_no_line (hs : Shows rows cols h board c) (hn : 0 < n) (hrow : row < rows)
    (hcol : col < cols) (hthrough : Through rows cols n c player row col)
    (hno : ¬ ∃ d i j, d ≠ Direction.column ∧ IsLine rows cols n c player d i j) :
    checkWin h board rows cols n row col player =
      checkWinColumn h board rows cols n col player := by
  obtain ⟨diagonal, hrun, hdiagonal⟩ := checkWinDiagonal_ok hs hn hrow hcol hthrough
  obtain ⟨bRow, hrunRow, hbRow⟩ := @checkWinRow_ok rows cols n h board c player hs hn row (by omega)
  have hdiagonal' : diagonal = false := by
    rw [← Bool.not_eq_true, hdiagonal]
    intro hfound
    cases hfound with
    | inl hfound =>
      obtain ⟨i, j, hline⟩ := hfound
      exact hno ⟨.diagonal, i, j, by simp, hline⟩
    | inr hfound =>
      obtain ⟨i, j, hline⟩ := hfound
      exact hno ⟨.antidiagonal, i, j, by simp, hline⟩
  have hbRow' : bRow = false := by
    rw [← Bool.not_eq_true, hbRow]
    intro hfound
    obtain ⟨j, hline⟩ := hfound
    exact hno ⟨.row, row, j, by simp, hline⟩
  rw [checkWin, hrun, hdiagonal', Option.bind_eq_bind, Option.bind_some]
  simp [hrunRow, hbRow']

/-- Then the only lines are those of the column. -/
theorem hasLine_iff_column (hthrough : Through rows cols n c player row col)
    (hno : ¬ ∃ d i j, d ≠ Direction.column ∧ IsLine rows cols n c player d i j) :
    (∃ d i j, IsLine rows cols n c player d i j) ↔
      ∃ i, IsLine rows cols n c player .column i col := by
  constructor
  · intro h
    obtain ⟨d, i, j, hline⟩ := h
    by_cases hd : d = .column
    · subst hd
      obtain ⟨k, -, -, hj⟩ := hthrough _ _ _ hline
      simp only [Direction.right, mul_zero, add_zero] at hj
      exact ⟨i, hj ▸ hline⟩
    · exact absurd ⟨d, i, j, hd, hline⟩ hno
  · intro h
    obtain ⟨i, hline⟩ := h
    exact ⟨_, _, _, hline⟩

theorem IsLine.end_le {i j : ℤ} (hn : 0 < n) (hline : IsLine rows cols n c player .column i j) :
    i + n ≤ rows := by
  have hlast := (hline (n - 1) (by omega)).1.2.1
  simp only [Direction.down, mul_one] at hlast
  omega

end Answer

/-- After the first lines are completed, they are found on square boards, where one of them is
horizontal or diagonal, and on boards with more rows than columns where each vertical line comes
with one that ends above row `cols`. -/
theorem detects_iff (rows cols n : ℕ) (hn : 0 < n) (moves : List (ℤ × Piece))
    (hplayers : ∀ x ∈ moves, x.2 ≠ "-") (h h' : Heap) (board board' : Board)
    (hplay : playAll rows cols (createBoard rows cols) moves = some (h, board))
    (hno : ∀ p, p ≠ "-" → ¬ HasLine rows cols n (pieceAt h board) p) (row col : ℕ)
    (player : Piece) (hplayer : player ≠ "-")
    (hmove : makeMove h board rows cols col player = some ((row : ℤ), h', board')) :
    Detects rows cols n h' board' row col player ↔
      rows = cols ∨
        (∃ d i j, d ≠ Direction.column ∧ IsLine rows cols n (pieceAt h' board') player d i j) ∨
        (cols < rows ∧ ∀ i, IsLine rows cols n (pieceAt h' board') player .column i col →
          ∃ i', IsLine rows cols n (pieceAt h' board') player .column i' col ∧ i' + n ≤ cols) := by
  obtain ⟨h₁, board₁, c, hplay', hi⟩ := playAll_inGame moves hplayers (inGame_createBoard rows cols)
  obtain ⟨rfl, rfl⟩ : h₁ = h ∧ board₁ = board := by
    simpa using Option.some.inj (hplay'.symm.trans hplay)
  obtain ⟨hrow, hcol, hs⟩ := hi.landed hmove
  have hno' : ¬ HasLine rows cols n c player := by
    have hlines := hno player hplayer
    rw [HasLine, isLine_pieceAt_eq hi.shows] at hlines
    exact hlines
  have hthrough := through_put hno' row col player
  rw [Detects, HasLine, isLine_pieceAt_eq hs]
  generalize put c row col player = c' at hs hthrough
  by_cases hline : ∃ d i j, d ≠ Direction.column ∧ IsLine rows cols n c' player d i j
  · have hany : ∃ d i j, IsLine rows cols n c' player d i j := by
      obtain ⟨d, i, j, -, hline⟩ := hline
      exact ⟨d, i, j, hline⟩
    constructor
    · intro _
      exact .inr (.inl hline)
    · intro _
      refine ⟨true, checkWin_of_line hs hn hrow hcol hthrough hline, ?_⟩
      simpa using hany
  · rw [checkWin_of_no_line hs hn hrow hcol hthrough hline, hasLine_iff_column hthrough hline]
    simp only [hline, false_or]
    obtain hwide | hle := Nat.lt_or_ge rows cols
    · rw [checkWinColumn_error hs hwide]
      constructor
      · intro hfound
        obtain ⟨b, hb, -⟩ := hfound
        cases hb
      · intro hcond
        omega
    · obtain ⟨b, hrun, hb⟩ := @checkWinColumn_ok rows cols n h' board' c' player hs hn hle col
        (by omega)
      rw [hrun]
      constructor
      · intro hfound
        obtain ⟨b', hb', hiff⟩ := hfound
        obtain rfl : b = b' := Option.some.inj hb'
        obtain heq | hlt := Nat.eq_or_lt_of_le hle
        · exact .inl heq.symm
        · right
          refine ⟨hlt, ?_⟩
          intro i hi
          exact hb.mp (hiff.mpr ⟨i, hi⟩)
      · intro hcond
        refine ⟨b, rfl, ?_⟩
        rw [hb]
        constructor
        · intro hfound
          obtain ⟨i, hi, -⟩ := hfound
          exact ⟨i, hi⟩
        · intro hfound
          obtain ⟨i, hi⟩ := hfound
          cases hcond with
          | inl heq => exact ⟨i, hi, heq ▸ hi.end_le hn⟩
          | inr hcond => exact hcond.2 i hi

theorem not_hasLine_createBoard {rows cols n : ℕ} (hn : 0 < n) (p : Piece) (hp : p ≠ "-") :
    ¬ HasLine rows cols n
      (pieceAt (createBoard rows cols).1 (createBoard rows cols).2) p := by
  intro hline
  obtain ⟨d, i, j, hline⟩ := hline
  have hempty := ((shows_createBoard rows cols).isLine_pieceAt d i j).mp hline
  exact hp (hempty 0 hn).2.symm

/-- The first move on a square board, where one piece makes a line. -/
theorem detects_iff_square :
    Detects 2 2 1 [["-", "-"], ["X", "-"]] [0, 1] 1 0 "X" ↔
      (2 : ℕ) = 2 ∨
        (∃ d i j, d ≠ Direction.column ∧
          IsLine 2 2 1 (pieceAt [["-", "-"], ["X", "-"]] [0, 1]) "X" d i j) ∨
        ((2 : ℕ) < 2 ∧
          ∀ i, IsLine 2 2 1 (pieceAt [["-", "-"], ["X", "-"]] [0, 1]) "X" .column i (0 : ℕ) →
            ∃ i', IsLine 2 2 1 (pieceAt [["-", "-"], ["X", "-"]] [0, 1]) "X" .column i' (0 : ℕ) ∧
              i' + (1 : ℕ) ≤ (2 : ℕ)) :=
  detects_iff 2 2 1 Nat.one_pos [] (by decide) _ _ _ _ rfl (not_hasLine_createBoard Nat.one_pos) 1 0
    "X" (by decide) (by decide)

/-- On a board of 6 rows and 7 columns the first move makes `check_win` leave the board. -/
theorem not_detects_wide :
    ∃ h board, makeMove (createBoard 6 7).1 (createBoard 6 7).2 6 7 0 "X" =
        some (((5 : ℕ) : ℤ), h, board) ∧
      (∀ p, p ≠ "-" →
        ¬ HasLine 6 7 4 (pieceAt (createBoard 6 7).1 (createBoard 6 7).2) p) ∧
      ¬ Detects 6 7 4 h board 5 0 "X" := by
  refine ⟨[List.replicate 7 "-", "X" :: List.replicate 6 "-"], [0, 0, 0, 0, 0, 1], by decide,
    not_hasLine_createBoard (by decide), ?_⟩
  intro hdetects
  obtain ⟨b, hrun, -⟩ := hdetects
  have hleaves : checkWin [List.replicate 7 "-", "X" :: List.replicate 6 "-"] [0, 0, 0, 0, 0, 1]
      6 7 4 5 0 "X" = none := by decide
  rw [hleaves] at hrun
  cases hrun

end Courses.Exercises.ConnectN
