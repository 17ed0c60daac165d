import Courses.Lib.SwapClasses
import Courses.Puzzle.Moves

/-!
# Which boards can be reached

The rearrangements of the tiles that moves can bring about on a board, with
the blank back in its cell, form a group, and the group is the same on every
board reached. A walk of the blank around a square of four cells rotates the
three tiles there. Two such squares around the blank share a tile, or are both
next to one that does, so the tiles of all squares that the blank ever comes
to lie in one class, and the blank comes next to every tile.
-/

namespace Courses.Puzzle

open Equiv SwapClasses

variable {n : ℕ} {b b' : Board n} {p q z c : Cell n}

/-- The board with its tiles renamed. -/
def relabel (σ : Perm (Fin (n * n))) (b : Board n) : Board n := ⟨b.board.trans σ⟩

/-- A renaming that leaves the blank as it is. -/
def KeepsBlank (σ : Perm (Fin (n * n))) : Prop := ∀ t, t.val = 0 → σ t = t

theorem relabel_one : relabel 1 b = b := rfl

theorem relabel_mul (σ τ : Perm (Fin (n * n))) : relabel (σ * τ) b = relabel σ (relabel τ b) := rfl

theorem relabel_swapAndCreate (σ : Perm (Fin (n * n))) :
    relabel σ (b.swapAndCreate p q) = (relabel σ b).swapAndCreate p q := rfl

theorem KeepsBlank.mul {σ τ : Perm (Fin (n * n))} (hσ : KeepsBlank σ) (hτ : KeepsBlank τ) :
    KeepsBlank (σ * τ) := by
  intro t ht
  rw [Perm.mul_apply, hτ t ht, hσ t ht]

theorem KeepsBlank.inv {σ : Perm (Fin (n * n))} (hσ : KeepsBlank σ) : KeepsBlank σ⁻¹ := by
  intro t ht
  rw [Perm.inv_eq_iff_eq, hσ t ht]

theorem keepsBlank_swap {s t : Fin (n * n)} (hs : s.val ≠ 0) (ht : t.val ≠ 0) :
    KeepsBlank (swap s t) := by
  intro r hr
  exact swap_apply_of_ne_of_ne (by rintro rfl; exact hs hr) (by rintro rfl; exact ht hr)

theorem KeepsBlank.tile_relabel {σ : Perm (Fin (n * n))} (hσ : KeepsBlank σ)
    (hz : b.tile z = 0) : (relabel σ b).tile z = 0 :=
  (congrArg Fin.val (hσ _ hz)).trans hz

theorem KeepsBlank.reaches {σ : Perm (Fin (n * n))} (hσ : KeepsBlank σ) (h : Reaches b b') :
    Reaches (relabel σ b) (relabel σ b') := by
  induction h with
  | refl => exact .refl
  | tail _ hmove ih =>
    obtain ⟨z, c, hz, hadj, rfl⟩ := hmove
    exact ih.tail ⟨z, c, hσ.tile_relabel hz, hadj, rfl⟩

/-- The renamings of its tiles that moves can bring about on a board. -/
def renamings (b : Board n) : Subgroup (Perm (Fin (n * n))) where
  carrier := {σ | KeepsBlank σ ∧ Reaches b (relabel σ b)}
  one_mem' := ⟨fun _ _ => rfl, .refl⟩
  mul_mem' := fun {σ τ} hσ hτ => ⟨hσ.1.mul hτ.1, hσ.2.trans (hσ.1.reaches hτ.2)⟩
  inv_mem' := fun {σ} hσ => ⟨hσ.1.inv, by
    have hback := hσ.1.inv.reaches hσ.2
    rw [← relabel_mul, inv_mul_cancel, relabel_one] at hback
    exact hback.symm⟩

theorem mem_renamings {σ : Perm (Fin (n * n))} :
    σ ∈ renamings b ↔ KeepsBlank σ ∧ Reaches b (relabel σ b) :=
  Iff.rfl

/-- Moves do not change what renamings are possible. -/
theorem Reaches.renamings_eq (h : Reaches b b') : renamings b = renamings b' := by
  have hle : ∀ {b b' : Board n}, Reaches b b' → renamings b ≤ renamings b' :=
    fun h _ hσ => ⟨hσ.1, h.symm.trans (hσ.2.trans (hσ.1.reaches h))⟩
  exact le_antisymm (hle h) (hle h.symm)

theorem swapAndCreate_eq_relabel :
    b.swapAndCreate p q = relabel (swap (b.board p) (b.board q)) b := by
  have hboard : (swap p q).trans b.board = b.board.trans (swap (b.board p) (b.board q)) := by
    ext c
    simp [swap_apply_def, b.board.injective.eq_iff]
    split_ifs <;> rfl
  exact congrArg Board.mk hboard

theorem board_swapAndCreate_left : (b.swapAndCreate p q).board p = b.board q :=
  congrArg b.board (swap_apply_left p q)

theorem board_swapAndCreate_of_ne (hp : c ≠ p) (hq : c ≠ q) :
    (b.swapAndCreate p q).board c = b.board c :=
  congrArg b.board (swap_apply_of_ne_of_ne hp hq)

/-! ## Squares of four cells -/

/-- Numbers next to each other. -/
def Next (i j : Fin n) : Prop := i.val + 1 = j ∨ j.val + 1 = i

theorem Next.symm {i j : Fin n} (h : Next i j) : Next j i := Or.symm h

theorem Next.ne {i j : Fin n} (h : Next i j) : i ≠ j := by
  rintro rfl
  unfold Next at h
  omega

theorem exists_next (hn : 2 ≤ n) (i : Fin n) : ∃ j, Next i j := by
  obtain ⟨i, hi⟩ := i
  by_cases h : i + 1 < n
  · exact ⟨⟨i + 1, h⟩, Or.inl rfl⟩
  · exact ⟨⟨i - 1, by omega⟩, Or.inr (by simp; omega)⟩

theorem adjacent_row {i i' j : Fin n} (h : Next i i') : Adjacent (i, j) (i', j) := Or.inl ⟨rfl, h⟩

theorem adjacent_column {i j j' : Fin n} (h : Next j j') : Adjacent (i, j) (i, j') :=
  Or.inr ⟨rfl, h⟩

theorem reaches_swapAndCreate (h : Reaches b b') (hz : b'.tile z = 0) (hadj : Adjacent z c) :
    Reaches b (b'.swapAndCreate z c) ∧ (b'.swapAndCreate z c).tile c = 0 :=
  ⟨h.tail ⟨z, c, hz, hadj, rfl⟩, tile_swapAndCreate_right.trans hz⟩

/-- What a walk around a square does to the cells. -/
theorem swap_square {z x y w : Cell n} (hzx : z ≠ x) (hzy : z ≠ y) (hzw : z ≠ w) (hxy : x ≠ y)
    (hxw : x ≠ w) :
    swap z x * swap x y * swap y w * swap w z = swap y w * swap w x := by
  calc swap z x * swap x y * swap y w * swap w z
      = swap x y * (swap z y * swap y w) * swap w z := by
        rw [swap_mul_swap hzx hzy, swap_comm y z, mul_assoc (swap x y)]
    _ = swap x y * swap y w := by
        rw [swap_mul_swap hzy hzw, mul_assoc, mul_swap_mul_self]
    _ = swap y w * swap w x := swap_mul_swap hxy hxw

/-- The blank walks around a square of four cells. -/
theorem rotates_square {i i' j j' : Fin n} (hz : b.tile (i, j) = 0) (hi : Next i i')
    (hj : Next j j') :
    Rotates (renamings b) (b.board (i, j')) (b.board (i', j')) (b.board (i', j)) := by
  have hzx : (i, j) ≠ (i, j') := by simp [hj.ne]
  have hzy : (i, j) ≠ (i', j') := by simp [hi.ne]
  have hzw : (i, j) ≠ (i', j) := by simp [hi.ne]
  have hxy : (i, j') ≠ (i', j') := by simp [hi.ne]
  have hxw : (i, j') ≠ (i', j) := by simp [hi.ne]
  have hyw : (i', j') ≠ (i', j) := by simp [hj.ne.symm]
  obtain ⟨h₁, hz₁⟩ := reaches_swapAndCreate .refl hz (adjacent_column hj)
  obtain ⟨h₂, hz₂⟩ := reaches_swapAndCreate h₁ hz₁ (adjacent_row hi)
  obtain ⟨h₃, hz₃⟩ := reaches_swapAndCreate h₂ hz₂ (adjacent_column hj.symm)
  obtain ⟨h₄, -⟩ := reaches_swapAndCreate h₃ hz₃ (adjacent_row hi.symm)
  have hsquare : (((b.swapAndCreate (i, j) (i, j')).swapAndCreate (i, j') (i', j')).swapAndCreate
      (i', j') (i', j)).swapAndCreate (i', j) (i, j) =
        (b.swapAndCreate (i', j') (i', j)).swapAndCreate (i', j) (i, j') :=
    congrArg (fun π : Perm (Cell n) => (⟨π.trans b.board⟩ : Board n))
      (swap_square hzx hzy hzw hxy hxw)
  have htiles : (b.swapAndCreate (i', j') (i', j)).swapAndCreate (i', j) (i, j') =
      relabel (swap (b.board (i, j')) (b.board (i', j')) *
        swap (b.board (i', j')) (b.board (i', j))) b := by
    have hw : (b.swapAndCreate (i', j') (i', j)).board (i', j) = b.board (i', j') := by
      rw [swapAndCreate_comm, board_swapAndCreate_left]
    rw [swapAndCreate_eq_relabel, hw, board_swapAndCreate_of_ne hxy hxw,
      swapAndCreate_eq_relabel, relabel_mul, swap_comm (b.board (i, j'))]
  have hblank : ∀ {c : Cell n}, (i, j) ≠ c → (b.board c).val ≠ 0 :=
    fun hc h => hc (tile_injective b (Eq.trans hz (Eq.symm h)))
  refine ⟨b.board.injective.ne hxy, b.board.injective.ne hyw, b.board.injective.ne hxw, ?_⟩
  rw [mem_renamings, ← htiles, ← hsquare]
  exact ⟨(keepsBlank_swap (hblank hzx) (hblank hzy)).mul
    (keepsBlank_swap (hblank hzy) (hblank hzw)), h₄⟩

/-! ## All tiles are in one class -/

section Linked

variable {G : Subgroup (Perm (Fin (n * n)))} {u v w : Fin (n * n)} {i i' i₁ j j' j₁ : Fin n}

/-- The three tiles of a square around the blank at `(i, j)` are in the class of `u`. -/
def SquareLinked (G : Subgroup (Perm (Fin (n * n)))) (u v : Fin (n * n)) (b : Board n)
    (i j i' j' : Fin n) : Prop :=
  Linked G u v u (b.board (i, j')) ∧ Linked G u v u (b.board (i', j')) ∧
    Linked G u v u (b.board (i', j))

/-- With one square around the blank all of them are in the class. -/
theorem SquareLinked.around (hbase : Rotates G u v w) (hG : renamings b = G)
    (hz : b.tile (i, j) = 0) (h : SquareLinked G u v b i j i₁ j₁) (hi₁ : Next i i₁)
    (hi : Next i i') (hj : Next j j') : SquareLinked G u v b i j i' j' := by
  have hside : SquareLinked G u v b i j i₁ j' := by
    have hrot := hG ▸ rotates_square hz hi₁ hj
    obtain ⟨hx, hy⟩ := hbase.absorb_both h.2.2 hrot.turn.turn
    exact ⟨hx, hy, h.2.2⟩
  exact ⟨hside.1, hbase.absorb_both hside.1 (hG ▸ rotates_square hz hi hj)⟩

/-- The squares that the blank ever comes to are in the class. -/
theorem squareLinked_of_reaches (hn : 2 ≤ n) {b₀ : Board n} {i₀ j₀ i₀' j₀' : Fin n}
    (hz₀ : b₀.tile (i₀, j₀) = 0) (hi₀ : Next i₀ i₀')
    (hbase : Rotates (renamings b₀) u v w)
    (h₀ : SquareLinked (renamings b₀) u v b₀ i₀ j₀ i₀' j₀') (h : Reaches b₀ b)
    (hz : b.tile (i, j) = 0) (hi : Next i i') (hj : Next j j') :
    SquareLinked (renamings b₀) u v b i j i' j' := by
  induction h generalizing i j i' j' with
  | refl =>
    obtain ⟨rfl, rfl⟩ := Prod.mk.inj (tile_injective b₀ (hz₀.trans hz.symm))
    exact h₀.around hbase rfl hz hi₀ hi hj
  | @tail b b' hreach hmove ih =>
    have hG : renamings b' = renamings b₀ :=
      (Reaches.renamings_eq (hreach.tail hmove)).symm
    obtain ⟨⟨i₁, j₁⟩, ⟨i₂, j₂⟩, hz₁, hadj, rfl⟩ := hmove
    obtain ⟨rfl, rfl⟩ := Prod.mk.inj
      (tile_injective _ (hz.trans (tile_swapAndCreate_right.trans hz₁).symm))
    rcases hadj with ⟨hj₁, hrow⟩ | ⟨hi₁, hcolumn⟩
    · obtain rfl : j₁ = j := hj₁
      obtain ⟨k, hk⟩ := exists_next hn j₁
      obtain ⟨hx, hy, hw⟩ := ih hz₁ hrow hk
      have hsquare : SquareLinked (renamings b₀) u v (b.swapAndCreate (i₁, j₁) (i, j₁)) i j₁ i₁ k := by
        unfold SquareLinked
        rw [board_swapAndCreate_of_ne (by simp [hk.ne.symm]) (by simp [hk.ne.symm]),
          board_swapAndCreate_of_ne (by simp [hk.ne.symm]) (by simp [hk.ne.symm]),
          board_swapAndCreate_left]
        exact ⟨hy, hx, hw⟩
      exact hsquare.around hbase hG hz (Next.symm hrow) hi hj
    · obtain rfl : i₁ = i := hi₁
      obtain ⟨k, hk⟩ := exists_next hn i₁
      obtain ⟨hx, hy, hw⟩ := ih hz₁ hk hcolumn
      have hsquare : SquareLinked (renamings b₀) u v (b.swapAndCreate (i₁, j₁) (i₁, j)) i₁ j k j₁ := by
        unfold SquareLinked
        rw [board_swapAndCreate_left,
          board_swapAndCreate_of_ne (by simp [hk.ne.symm]) (by simp [hk.ne.symm]),
          board_swapAndCreate_of_ne (by simp [hk.ne.symm]) (by simp [hk.ne.symm])]
        exact ⟨hx, hw, hy⟩
      exact hsquare.around hbase hG hz hk hi hj

end Linked

/-! ## Walks of the blank -/

/-- The number of moves between two cells. -/
def cellDistance (p q : Cell n) : ℕ :=
  ((p.1.val : ℤ) - q.1).natAbs + ((p.2.val : ℤ) - q.2).natAbs

theorem cellDistance_eq_zero (h : cellDistance p q = 0) : p = q := by
  unfold cellDistance at h
  ext <;> omega

theorem exists_adjacent_closer (h : p ≠ q) :
    ∃ c, Adjacent p c ∧ cellDistance c q + 1 = cellDistance p q := by
  obtain ⟨⟨i, hi⟩, ⟨j, hj⟩⟩ := p
  obtain ⟨⟨k, hk⟩, ⟨l, hl⟩⟩ := q
  simp only [Adjacent, cellDistance]
  rcases lt_trichotomy i k with hik | rfl | hik
  · exact ⟨(⟨i + 1, by omega⟩, ⟨j, hj⟩), Or.inl ⟨rfl, Or.inl rfl⟩, by simp; omega⟩
  · rcases lt_trichotomy j l with hjl | rfl | hjl
    · exact ⟨(⟨i, hi⟩, ⟨j + 1, by omega⟩), Or.inr ⟨rfl, Or.inl rfl⟩, by simp; omega⟩
    · exact absurd rfl h
    · exact ⟨(⟨i, hi⟩, ⟨j - 1, by omega⟩), Or.inr ⟨rfl, Or.inr (by simp; omega)⟩, by simp; omega⟩
  · exact ⟨(⟨i - 1, by omega⟩, ⟨j, hj⟩), Or.inl ⟨rfl, Or.inr (by simp; omega)⟩, by simp; omega⟩

/-- The blank can be brought to any cell. -/
theorem exists_reaches_blank (hz : b.tile z = 0) (c : Cell n) :
    ∃ b', Reaches b b' ∧ b'.tile c = 0 := by
  induction hk : cellDistance z c generalizing b z with
  | zero => exact ⟨b, .refl, cellDistance_eq_zero hk ▸ hz⟩
  | succ k ih =>
    have hne : z ≠ c := by
      rintro rfl
      simp [cellDistance] at hk
    obtain ⟨d, hadj, hcloser⟩ := exists_adjacent_closer hne
    obtain ⟨hreach, hzero⟩ := reaches_swapAndCreate .refl hz hadj
    obtain ⟨b', hreach', hblank⟩ := ih hzero (by omega)
    exact ⟨b', hreach.trans hreach', hblank⟩

/-- The blank comes next to every tile. -/
theorem exists_reaches_adjacent (hz : b.tile z = 0) (hc : b.tile c ≠ 0) :
    ∃ b' z', Reaches b b' ∧ b'.tile z' = 0 ∧ Adjacent z' c ∧ b'.board c = b.board c := by
  induction hk : cellDistance z c generalizing b z with
  | zero => exact absurd (cellDistance_eq_zero hk ▸ hz) hc
  | succ k ih =>
    have hne : z ≠ c := by
      rintro rfl
      exact hc hz
    obtain ⟨d, hadj, hcloser⟩ := exists_adjacent_closer hne
    by_cases hdc : d = c
    · exact ⟨b, z, .refl, hz, hdc ▸ hadj, rfl⟩
    obtain ⟨hreach, hzero⟩ := reaches_swapAndCreate .refl hz hadj
    have hkept : (b.swapAndCreate z d).board c = b.board c :=
      board_swapAndCreate_of_ne hne.symm (Ne.symm hdc)
    have hc' : (b.swapAndCreate z d).tile c ≠ 0 := by
      rw [Board.tile, hkept]
      exact hc
    obtain ⟨b', z', hreach', hz', hadj', hsame⟩ := ih hzero hc' (by omega)
    exact ⟨b', z', hreach.trans hreach', hz', hadj', hsame.trans hkept⟩

/-- Exchanging two tiles amounts to exchanging any other two. -/
theorem exists_linked_tiles (hn : 2 ≤ n) (b : Board n) :
    ∃ u v, ∀ s t : Fin (n * n), s.val ≠ 0 → t.val ≠ 0 → Linked (renamings b) u v s t := by
  have hpos : 0 < n * n := by positivity
  obtain ⟨⟨i, j⟩, hz⟩ := exists_tile b hpos
  obtain ⟨i', hi⟩ := exists_next hn i
  obtain ⟨j', hj⟩ := exists_next hn j
  have hbase := rotates_square hz hi hj
  refine ⟨b.board (i, j'), b.board (i', j'), fun s t hs ht => ?_⟩
  have hself : SquareLinked (renamings b) (b.board (i, j')) (b.board (i', j')) b i j i' j' :=
    ⟨Or.inl rfl, linked_base, linked_base.trans (hbase.linked linked_base)⟩
  have hlinked : ∀ t : Fin (n * n), t.val ≠ 0 →
      Linked (renamings b) (b.board (i, j')) (b.board (i', j')) (b.board (i, j')) t := by
    intro t ht
    obtain ⟨c, rfl⟩ := b.board.surjective t
    obtain ⟨b', ⟨k, l⟩, hreach, hz', hadj, hsame⟩ := exists_reaches_adjacent hz ht
    have hsquare {k' l' : Fin n} (hk : Next k k') (hl : Next l l') :=
      squareLinked_of_reaches hn hz hi hbase hself hreach hz' hk hl
    obtain ⟨k₁, l₁⟩ := c
    rw [← hsame]
    rcases hadj with ⟨rfl, hrow⟩ | ⟨rfl, hcolumn⟩
    · obtain ⟨l', hl⟩ := exists_next hn l
      exact (hsquare hrow hl).2.2
    · obtain ⟨k', hk⟩ := exists_next hn k
      exact (hsquare hk hcolumn).1
  exact (hlinked s hs).symm.trans (hlinked t ht)

/-- Every board is reached from a board or from the board with two tiles exchanged. -/
theorem reaches_or_reaches_swapAndCreate (hn : 2 ≤ n) (g : Board n) (hpq : p ≠ q)
    (hp : b.tile p ≠ 0) (hq : b.tile q ≠ 0) : Reaches b g ∨ Reaches (b.swapAndCreate p q) g := by
  have hpos : 0 < n * n := by positivity
  obtain ⟨z, hz⟩ := exists_tile g hpos
  obtain ⟨z₀, hz₀⟩ := exists_tile b hpos
  obtain ⟨b', hreach, hz'⟩ := exists_reaches_blank hz₀ z
  obtain ⟨u, v, hlinked⟩ := exists_linked_tiles hn b
  have hσ : relabel (b'.board.symm.trans g.board) b' = g := by
    simp [relabel, ← trans_assoc]
  have hkeeps : KeepsBlank (b'.board.symm.trans g.board) := by
    intro t ht
    have hcell : b'.board.symm t = z := by
      rw [symm_apply_eq]
      exact Fin.ext (ht.trans hz'.symm)
    rw [trans_apply, hcell]
    exact Fin.ext (Eq.trans hz ht.symm)
  have hswap := (hlinked _ _ hp hq).resolve_left (b.board.injective.ne hpq)
  have hmem := mem_or_swap_mul_mem hlinked (b'.board.symm.trans g.board)
    fun t ht h => ht (hkeeps t h)
  rcases hmem with hmem | hmem
  · left
    rw [hreach.renamings_eq, mem_renamings, hσ] at hmem
    exact hreach.trans hmem.2
  · right
    have hmem' := (renamings b).mul_mem hswap hmem
    rw [mul_assoc, swap_mul_self_mul, hreach.renamings_eq, mem_renamings, relabel_mul, hσ] at hmem'
    have hrenamed := (keepsBlank_swap hp hq).reaches (hreach.trans hmem'.2)
    rwa [← relabel_mul, swap_mul_self, relabel_one, ← swapAndCreate_eq_relabel] at hrenamed

end Courses.Puzzle
