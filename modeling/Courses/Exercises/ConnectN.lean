import Mathlib.Order.Bounds.Basic
import Mathlib.Tactic

/-!
# Connect N

The board of lab 4 is a list of rows, and a row is a list of pieces. Rows are objects of their
own: `create_board` puts the same row into all places of the board, and `replace_elem` makes a new
list. So a board is a list of references here, into a heap of rows.
-/
namespace Courses.Exercises.ConnectN

abbrev Piece := String

/-- All rows made so far. -/
abbrev Heap := List (List Piece)

/-- A board, as the references of its rows. -/
abbrev Board := List ℕ

/-! ## The program -/

/-- `lst[index]`: a negative index counts from the end. -/
def item {α : Type} (lst : List α) (index : ℤ) : Option α :=
  if 0 ≤ index then lst[index.toNat]?
  else if 0 ≤ lst.length + index then lst[(lst.length + index).toNat]?
  else none

def createRow (size : ℕ) : List Piece := List.replicate size "-"

/-- The heap with the one row, and the board. -/
def createBoard (rows columns : ℕ) : Heap × Board :=
  ([createRow columns], List.replicate rows 0)

def replaceElem {α : Type} (lst : List α) (index : ℕ) (elem : α) : Option (List α) :=
  if index < lst.length then some (lst.take index ++ [elem] ++ lst.drop (index + 1)) else none

def getPiece (h : Heap) (board : Board) (row column : ℤ) : Option Piece := do
  let r ← item board row
  let pieces ← h[r]?
  item pieces column

/-- The loop of `put_piece` at `row`, where `n` rows are left before `max_rows`. -/
def findRow (h : Heap) (board : Board) (column : ℤ) : ℕ → ℕ → Option ℕ
  | 0, row => some row
  | n + 1, row => do
    if (← getPiece h board row column) = "-" then findRow h board column n (row + 1)
    else some row

def putPiece (h : Heap) (board : Board) (maxRows column : ℕ) (player : Piece) :
    Option (ℤ × Heap × Board) := do
  let row ← findRow h board column maxRows 0
  if row ≠ 0 then
    let r ← item board (row - 1)
    let pieces ← h[r]?
    let newRow ← replaceElem pieces column player
    let board' ← replaceElem board (row - 1) h.length
    return ((row : ℤ) - 1, h ++ [newRow], board')
  else return ((row : ℤ) - 1, h, board)

def makeMove (h : Heap) (board : Board) (maxRows maxCols : ℕ) (col : ℤ) (player : Piece) :
    Option (ℤ × Heap × Board) :=
  if col < 0 ∨ col ≥ maxCols then some (-1, h, board)
  else putPiece h board maxRows col.toNat player

/-- Moves one after the other, each on the board that the one before returned. -/
def playAll (maxRows maxCols : ℕ) : Heap × Board → List (ℤ × Piece) → Option (Heap × Board)
  | x, [] => some x
  | (h, board), (col, player) :: moves => do
    let (_, x) ← makeMove h board maxRows maxCols col player
    playAll maxRows maxCols x moves

/-! ## What a board shows -/

def OnBoard (rows cols : ℕ) (i j : ℤ) : Prop := 0 ≤ i ∧ i < rows ∧ 0 ≤ j ∧ j < cols

/-- A row of pieces. -/
def rowOf (cols : ℕ) (c : ℤ → ℤ → Piece) (i : ℤ) : List Piece :=
  (List.range cols).map fun j : ℕ => c i j

/-- The pieces of a board by their rows and columns. -/
structure Shows (rows cols : ℕ) (h : Heap) (board : Board) (c : ℤ → ℤ → Piece) : Prop where
  length : board.length = rows
  row : ∀ i : ℕ, i < rows →
    ∃ r, board[i]? = some r ∧ h[r]? = some (rowOf cols c i)

/-- In each column the occupied cells form a block at the bottom. -/
def Gravity (rows cols : ℕ) (c : ℤ → ℤ → Piece) : Prop :=
  ∀ i i' j, OnBoard rows cols i j → OnBoard rows cols i' j → i ≤ i' → c i j ≠ "-" → c i' j ≠ "-"

/-- The pieces with one more of the player's. -/
def put (c : ℤ → ℤ → Piece) (row col : ℤ) (player : Piece) : ℤ → ℤ → Piece :=
  fun i j => if i = row ∧ j = col then player else c i j

/-- The empty cells of a column. -/
def emptyCells (rows cols : ℕ) (c : ℤ → ℤ → Piece) (col : ℤ) : Set ℤ :=
  {i | OnBoard rows cols i col ∧ c i col = "-"}

section Moves

variable {rows cols : ℕ} {h h' : Heap} {board board' : Board} {c : ℤ → ℤ → Piece}

theorem item_natCast {α : Type} (lst : List α) (n : ℕ) : item lst n = lst[n]? := by
  simp [item]

theorem Shows.getPiece (hs : Shows rows cols h board c) {i j : ℤ}
    (hij : OnBoard rows cols i j) : getPiece h board i j = some (c i j) := by
  obtain ⟨hi, hrow, hj, hcol⟩ := hij
  lift i to ℕ using hi
  lift j to ℕ using hj
  obtain ⟨r, hr, hpieces⟩ := hs.row i (by exact_mod_cast hrow)
  simp [ConnectN.getPiece, item_natCast, hr, hpieces, rowOf, show j < cols by exact_mod_cast hcol]

/-- More rows in the heap change nothing. -/
theorem Shows.append (hs : Shows rows cols h board c) (newRow : List Piece) :
    Shows rows cols (h ++ [newRow]) board c := by
  constructor
  · exact hs.length
  · intro i hi
    obtain ⟨r, hr, hpieces⟩ := hs.row i hi
    exact ⟨r, hr, by rw [List.getElem?_append_left (List.getElem?_eq_some_iff.mp hpieces).1,
      hpieces]⟩

theorem replaceElem_eq {α : Type} {lst : List α} {index : ℕ} (hindex : index < lst.length)
    (elem : α) : replaceElem lst index elem = some (lst.set index elem) := by
  rw [replaceElem, if_pos hindex, List.set_eq_take_append_cons_drop, if_pos hindex]
  simp

theorem shows_createBoard (rows cols : ℕ) :
    Shows rows cols (createBoard rows cols).1 (createBoard rows cols).2 fun _ _ => "-" := by
  constructor
  · simp [createBoard]
  · intro i hi
    refine ⟨0, by simp [createBoard, hi], ?_⟩
    simp [createBoard, createRow, rowOf, List.map_const']

/-- The scan stops at the first occupied cell, or below the last row. -/
theorem findRow_ok (hs : Shows rows cols h board c) {col : ℕ} (hcol : col < cols) (n : ℕ) :
    ∀ row, row + n = rows → (∀ i : ℕ, i < row → c i col = "-") →
      ∃ stop : ℕ, findRow h board col n row = some stop ∧ stop ≤ rows ∧
        (∀ i : ℕ, i < stop → c i col = "-") ∧ (stop < rows → c stop col ≠ "-") := by
  induction n with
  | zero =>
    intro row hrow hempty
    exact ⟨row, rfl, by omega, hempty, by omega⟩
  | succ n ih =>
    intro row hrow hempty
    have hpiece := hs.getPiece (show OnBoard rows cols row col by simp [OnBoard]; omega)
    by_cases hdash : c row col = "-"
    · obtain ⟨stop, hstop⟩ := ih (row + 1) (by omega) (by
        intro i hi
        obtain rfl | hlt : i = row ∨ i < row := by omega
        · exact hdash
        · exact hempty i hlt)
      exact ⟨stop, by simpa [findRow, hpiece, hdash] using hstop⟩
    · exact ⟨row, by simp [findRow, hpiece, hdash], by omega, hempty, fun _ => hdash⟩

theorem rowOf_put (row : ℤ) (col : ℕ) (player : Piece) :
    rowOf cols (put c row col player) row = (rowOf cols c row).set col player := by
  apply List.ext_getElem
  · simp [rowOf]
  · intro j _ _
    by_cases heq : j = col
    · simp [rowOf, put, heq]
    · simp [rowOf, put, heq, Ne.symm heq]

theorem rowOf_put_of_ne {i row : ℤ} (hne : i ≠ row) (col : ℤ) (player : Piece) :
    rowOf cols (put c row col player) i = rowOf cols c i := by
  simp [rowOf, put, hne]

/-- A new row in place of an old one. -/
theorem Shows.set (hs : Shows rows cols h board c) {row : ℕ} (hrow : row < rows) (col : ℕ)
    (player : Piece) :
    Shows rows cols (h ++ [(rowOf cols c row).set col player]) (board.set row h.length)
      (put c row col player) := by
  constructor
  · rw [List.length_set, hs.length]
  · intro i hi
    by_cases heq : i = row
    · subst heq
      refine ⟨h.length, by simp [hs.length, hi], ?_⟩
      rw [List.getElem?_concat_length, rowOf_put]
    · obtain ⟨r, hr, hpieces⟩ := (hs.append ((rowOf cols c row).set col player)).row i hi
      refine ⟨r, by rw [List.getElem?_set_ne (Ne.symm heq), hr], ?_⟩
      rw [hpieces, rowOf_put_of_ne (by exact_mod_cast heq)]

/-- What a move does. -/
structure Moved (rows cols : ℕ) (h : Heap) (board : Board) (c : ℤ → ℤ → Piece) (col : ℤ)
    (player : Piece) (result : ℤ × Heap × Board) : Prop where
  lands : ∀ row, IsGreatest (emptyCells rows cols c col) row →
    result.1 = row ∧ Shows rows cols result.2.1 result.2.2 (put c row col player)
  refused : emptyCells rows cols c col = ∅ → result = (-1, h, board)
  kept : Shows rows cols result.2.1 board c

/-- The empty cells are those that the scan has passed. -/
theorem mem_emptyCells (hg : Gravity rows cols c) {col stop : ℕ} (hcol : col < cols)
    (hstop : stop ≤ rows) (hempty : ∀ i : ℕ, i < stop → c i col = "-")
    (hfull : stop < rows → c stop col ≠ "-") (i : ℤ) :
    i ∈ emptyCells rows cols c col ↔ 0 ≤ i ∧ i < stop := by
  constructor
  · intro hi
    obtain ⟨hboard, hdash⟩ := hi
    refine ⟨hboard.1, ?_⟩
    by_contra hle
    have hlt : stop < rows := by
      have hrow := hboard.2.1
      omega
    have hstart : OnBoard rows cols stop col := by
      refine ⟨?_, ?_, ?_, ?_⟩ <;> omega
    exact hg stop i col hstart hboard (by omega) (hfull hlt) hdash
  · intro hi
    obtain ⟨hpos, hlt⟩ := hi
    lift i to ℕ using hpos
    refine ⟨⟨?_, ?_, ?_, ?_⟩, hempty i (by exact_mod_cast hlt)⟩ <;> omega

theorem makeMove_moved (hs : Shows rows cols h board c) (hg : Gravity rows cols c) (col : ℤ)
    (player : Piece) :
    ∃ result, makeMove h board rows cols col player = some result ∧
      Moved rows cols h board c col player result := by
  by_cases hout : col < 0 ∨ col ≥ cols
  · have hempty : emptyCells rows cols c col = ∅ := by
      ext i
      simp [emptyCells, OnBoard]
      omega
    refine ⟨(-1, h, board), by rw [makeMove, if_pos hout], ?_, fun _ => rfl, hs⟩
    intro row hrow
    rw [hempty] at hrow
    exact absurd hrow.1 (Set.notMem_empty row)
  · have hpos : 0 ≤ col := by omega
    lift col to ℕ using hpos
    have hcol : col < cols := by omega
    obtain ⟨stop, hfind, hstop, hempty, hfull⟩ :=
      findRow_ok hs hcol rows 0 (by omega) (by omega)
    have hmem := mem_emptyCells hg hcol hstop hempty hfull
    rw [makeMove, if_neg hout, Int.toNat_natCast]
    cases stop with
    | zero =>
      refine ⟨(-1, h, board), by simp [putPiece, hfind], ?_, fun _ => rfl, hs⟩
      intro row hrow
      have hrange := (hmem row).mp hrow.1
      omega
    | succ row =>
      obtain ⟨r, hr, hpieces⟩ := hs.row row (by omega)
      have hitem : item board row = some r := by rw [item_natCast, hr]
      have hpiece := replaceElem_eq (show col < (rowOf cols c row).length by simp [rowOf, hcol])
        player
      have hboard := replaceElem_eq (show row < board.length by rw [hs.length]; omega) h.length
      have hput : putPiece h board rows col player =
          some ((row : ℤ), h ++ [(rowOf cols c row).set col player], board.set row h.length) := by
        have hrow : ((row + 1 : ℕ) : ℤ) - 1 = row := by omega
        simp only [putPiece, hfind, Option.bind_eq_bind, Option.bind_some, hrow, hitem, hpieces,
          hpiece, Nat.add_sub_cancel, hboard]
        rfl
      have hnew := hs.set (show row < rows by omega) col player
      refine ⟨_, hput, ?_, ?_, hs.append _⟩
      · intro row' hgreatest
        obtain rfl : row' = row := by
          have hle := hgreatest.2 ((hmem row).mpr (by omega))
          have hrange := (hmem row').mp hgreatest.1
          omega
        exact ⟨rfl, hnew⟩
      · intro hnone
        have hin : (row : ℤ) ∈ emptyCells rows cols c col := (hmem row).mpr (by omega)
        rw [hnone] at hin
        exact absurd hin (Set.notMem_empty _)

theorem Gravity.put (hg : Gravity rows cols c) {row col : ℤ} {player : Piece}
    (hplayer : player ≠ "-") (hrow : IsGreatest (emptyCells rows cols c col) row) :
    Gravity rows cols (put c row col player) := by
  intro i i' j hij hij' hle hoccupied
  by_cases hnew : i' = row ∧ j = col
  · simpa [ConnectN.put, hnew] using hplayer
  · have hsame : ConnectN.put c row col player i' j = c i' j := by simp [ConnectN.put, hnew]
    rw [hsame]
    by_cases hold : i = row ∧ j = col
    · obtain ⟨rfl, rfl⟩ := hold
      intro hdash
      have hbelow := hrow.2 ⟨hij', hdash⟩
      exact hnew ⟨le_antisymm hbelow hle, rfl⟩
    · have hsame' : ConnectN.put c row col player i j = c i j := by simp [ConnectN.put, hold]
      rw [hsame'] at hoccupied
      exact hg i i' j hij hij' hle hoccupied

/-- A column with an empty cell has a lowest one. -/
theorem exists_isGreatest {col : ℤ} (hne : emptyCells rows cols c col ≠ ∅) :
    ∃ row, IsGreatest (emptyCells rows cols c col) row := by
  obtain ⟨i, hi⟩ := Set.nonempty_iff_ne_empty.mpr hne
  have hbound : ∀ k ∈ emptyCells rows cols c col, k ≤ (rows : ℤ) := by
    intro k hk
    exact hk.1.2.1.le
  obtain ⟨row, hmem, hmax⟩ := Int.exists_greatest_of_bdd ⟨(rows : ℤ), hbound⟩ ⟨i, hi⟩
  exact ⟨row, hmem, hmax⟩

/-- The boards of a game. -/
structure InGame (rows cols : ℕ) (h : Heap) (board : Board) (c : ℤ → ℤ → Piece) : Prop where
  shows : Shows rows cols h board c
  gravity : Gravity rows cols c

theorem InGame.move (hi : InGame rows cols h board c) {col : ℤ} {player : Piece}
    (hplayer : player ≠ "-") {result : ℤ × Heap × Board}
    (hm : Moved rows cols h board c col player result) :
    ∃ c', InGame rows cols result.2.1 result.2.2 c' := by
  by_cases hfull : emptyCells rows cols c col = ∅
  · rw [hm.refused hfull]
    exact ⟨c, hi⟩
  · obtain ⟨row, hrow⟩ := exists_isGreatest hfull
    exact ⟨_, (hm.lands row hrow).2, hi.gravity.put hplayer hrow⟩

theorem playAll_inGame (moves : List (ℤ × Piece)) (hplayers : ∀ x ∈ moves, x.2 ≠ "-") :
    ∀ {h : Heap} {board : Board} {c : ℤ → ℤ → Piece}, InGame rows cols h board c →
      ∃ h' board' c', playAll rows cols (h, board) moves = some (h', board') ∧
        InGame rows cols h' board' c' := by
  induction moves with
  | nil =>
    intro h board c hi
    exact ⟨h, board, c, rfl, hi⟩
  | cons x moves ih =>
    intro h board c hi
    obtain ⟨col, player⟩ := x
    obtain ⟨result, hrun, hm⟩ := makeMove_moved hi.shows hi.gravity col player
    obtain ⟨c', hi'⟩ := hi.move (hplayers _ List.mem_cons_self) hm
    obtain ⟨h', board', c'', hplay, hi''⟩ :=
      ih (fun y hy => hplayers y (List.mem_cons_of_mem _ hy)) hi'
    refine ⟨h', board', c'', ?_, hi''⟩
    simp only [playAll, hrun, Option.bind_eq_bind, Option.bind_some]
    exact hplay

theorem inGame_createBoard (rows cols : ℕ) :
    InGame rows cols (createBoard rows cols).1 (createBoard rows cols).2 fun _ _ => "-" := by
  constructor
  · exact shows_createBoard rows cols
  · intro _ _ _ _ _ _ hdash
    exact absurd rfl hdash

end Moves

/-- Every sequence of moves goes through, and leads to a board on which the occupied cells of each
column are at its bottom and every next move does what is asked of it. -/
theorem connectN_gravity (rows cols : ℕ) (moves : List (ℤ × Piece))
    (hplayers : ∀ x ∈ moves, x.2 ≠ "-") :
    ∃ h board c, playAll rows cols (createBoard rows cols) moves = some (h, board) ∧
      Shows rows cols h board c ∧ Gravity rows cols c ∧
      ∀ col player, ∃ result, makeMove h board rows cols col player = some result ∧
        Moved rows cols h board c col player result := by
  obtain ⟨h, board, c, hplay, hi⟩ := playAll_inGame moves hplayers (inGame_createBoard rows cols)
  refine ⟨h, board, c, hplay, hi.shows, hi.gravity, ?_⟩
  intro col player
  exact makeMove_moved hi.shows hi.gravity col player

/-- Two pieces in one column, with a call between them that is refused. -/
theorem connectN_gravity_two :
    ∃ h board c, playAll 2 2 (createBoard 2 2) [(0, "X"), (-4, "O"), (0, "O")] = some (h, board) ∧
      Shows 2 2 h board c ∧ Gravity 2 2 c ∧
      ∀ col player, ∃ result, makeMove h board 2 2 col player = some result ∧
        Moved 2 2 h board c col player result :=
  connectN_gravity 2 2 _ (by decide)

end Courses.Exercises.ConnectN
