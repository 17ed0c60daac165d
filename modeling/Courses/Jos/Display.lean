import Courses.Jos.Strings
import Mathlib.Data.List.GetD

/-!
# The output of the console

The other half of `kern/console.c`: `cons_putc` sends a character to the serial line, to the
parallel port and to the screen. The screen shows the end of a page that is never erased: when the
cursor leaves the last line, the lines move up and the first one is gone.
-/
namespace Courses.Jos.Display

open Courses.Jos.Strings

def crtRows : ℕ := 25
def crtCols : ℕ := 80

/-- `CRT_SIZE` -/
def crtSize : ℕ := crtRows * crtCols

@[simp] theorem crtRows_eq : crtRows = 25 := rfl

@[simp] theorem crtCols_eq : crtCols = 80 := rfl

@[simp] theorem crtSize_eq : crtSize = 2000 := rfl

structure Screen where
  crtBuf : Memory (BitVec 16)
  crtPos : ℕ

/-- The screen ends behind its last cell. -/
def Screen.write (s : Screen) (pos : ℕ) (c : BitVec 32) : Option Screen :=
  if pos < crtSize then some { s with crtBuf := Function.update s.crtBuf pos (c.setWidth 16) }
  else none

/-- A space, black on white. -/
def blank : BitVec 16 := 0x0720

/-- The loop that clears the last line. -/
def clear (buf : Memory (BitVec 16)) (i : ℕ) : ℕ → Memory (BitVec 16)
  | 0 => buf
  | count + 1 => clear (Function.update buf i blank) (i + 1) count

/-- What `cga_putc` does when the cursor is behind the screen; words hold two cells. -/
def Screen.scroll (s : Screen) : Screen :=
  if s.crtPos ≥ crtSize then
    ⟨clear (moveBlock 2 s.crtBuf 0 crtCols (crtSize - crtCols)) (crtSize - crtCols) crtCols,
      s.crtPos - crtCols⟩
  else s

/-- If no attribute is given, it is black on white. -/
def withAttribute (c : BitVec 32) : BitVec 32 := if c &&& ~~~0xFF = 0 then c ||| 0x0700 else c

/-- The low byte of a character, on which the switch is. -/
def low (c : BitVec 32) : BitVec 32 := c &&& 0xFF

/-- `cga_putc` of a character that is no tab; `crt_pos` has 16 bits. -/
@[grind]
def cgaPutc (s : Screen) (c : BitVec 32) : Option Screen := do
  let c := withAttribute c
  let s ←
    if low c = 8 then
      if s.crtPos > 0 then do
        let s ← s.write (s.crtPos - 1) ((c &&& ~~~0xFF) ||| 32)
        pure { s with crtPos := s.crtPos - 1 }
      else some s
    else if low c = 10 then
      let pos := (s.crtPos + crtCols) % 2 ^ 16
      some { s with crtPos := pos - pos % crtCols }
    else if low c = 13 then some { s with crtPos := s.crtPos - s.crtPos % crtCols }
    else do
      let s ← s.write s.crtPos c
      pure { s with crtPos := (s.crtPos + 1) % 2 ^ 16 }
  return s.scroll

/-- What has been sent to the serial line and the parallel port, and the screen. -/
structure Output where
  serial : List UInt8
  lpt : List UInt8
  screen : Screen

/-- `serial_putc` and `lpt_putc`: a port takes a byte. -/
def Output.send (o : Output) (c : BitVec 32) : Output :=
  let byte := UInt8.ofNat c.toNat
  { o with serial := o.serial ++ [byte], lpt := o.lpt ++ [byte] }

/-- `cons_putc` of a character that is no tab. -/
def putOther (o : Output) (c : BitVec 32) : Option Output := do
  let o := o.send c
  let screen ← cgaPutc o.screen c
  return { o with screen := screen }

/-- `cons_putc`. For a tab `cga_putc` calls it with spaces. -/
@[grind]
def consPutc (o : Output) (c : BitVec 32) : Option Output :=
  if low (withAttribute c) = 9 then do
    let o ← (List.replicate 5 32).foldlM putOther (o.send c)
    return { o with screen := o.screen.scroll }
  else putOther o c

/-! ## A page that grows -/

/-- All that was printed, the cursor, and how many lines have left the screen. -/
structure Page where
  cells : Memory (BitVec 16)
  pos : ℕ
  top : ℕ

namespace Page

def put (p : Page) (pos : ℕ) (c : BitVec 32) : Page :=
  { p with cells := Function.update p.cells pos (c.setWidth 16) }

/-- The line of the cursor is among the lines of the screen. -/
def follow (p : Page) : Page := { p with top := max p.top (p.pos / crtCols + 1 - crtRows) }

/-- A character that is no tab. -/
@[grind]
def print (p : Page) (c : BitVec 32) : Page :=
  let c := withAttribute c
  Page.follow
    (if low c = 8 then
      if p.pos > p.top * crtCols then
        { p.put (p.pos - 1) ((c &&& ~~~0xFF) ||| 32) with pos := p.pos - 1 }
      else p
    else if low c = 10 then { p with pos := (p.pos / crtCols + 1) * crtCols }
    else if low c = 13 then { p with pos := p.pos / crtCols * crtCols }
    else { p.put p.pos c with pos := p.pos + 1 })

end Page

/-- The screen is what is left of the page, and below it nothing has been printed. -/
structure Shows (s : Screen) (p : Page) : Prop where
  crtPos_lt : s.crtPos < crtSize
  pos : p.pos = p.top * crtCols + s.crtPos
  cell : ∀ i < crtSize, s.crtBuf i = p.cells (p.top * crtCols + i)
  below : ∀ i ≥ (p.top + crtRows) * crtCols, p.cells i = blank

/-- The page at the start: the screen as it was found. -/
def Screen.page (s : Screen) : Page :=
  ⟨fun i => if i < crtSize then s.crtBuf i else blank, s.crtPos, 0⟩

theorem Screen.shows_page (s : Screen) (h : s.crtPos < crtSize) : Shows s s.page := by
  constructor
  · exact h
  · exact (Nat.zero_add _).symm
  · intro i hi
    rw [page, Nat.zero_mul, Nat.zero_add]
    exact (if_pos hi).symm
  · intro i hi
    rw [page, Nat.zero_add] at hi
    exact if_neg (Nat.not_lt.2 hi)

theorem clear_apply (buf : Memory (BitVec 16)) (i count a : ℕ) :
    clear buf i count a = if i ≤ a ∧ a < i + count then blank else buf a := by
  induction count generalizing buf i with
  | zero =>
    rw [if_neg (by omega)]
    rfl
  | succ count ih =>
    rw [clear, ih]
    by_cases ha : a = i
    · subst ha
      rw [if_neg (by omega), if_pos (by omega), Function.update_self]
    · rw [Function.update_of_ne ha]
      exact if_congr (by omega) rfl rfl

/-- The lines move up by one. -/
theorem scrolled_apply (buf : Memory (BitVec 16)) (i : ℕ) (hi : i < crtSize) :
    clear (moveBlock 2 buf 0 crtCols (crtSize - crtCols)) (crtSize - crtCols) crtCols i =
      if i < crtSize - crtCols then buf (crtCols + i) else blank := by
  have hunits : 2 ∣ crtSize - crtCols := ⟨960, rfl⟩
  have hsize : crtSize - crtCols + crtCols = crtSize := rfl
  rw [clear_apply, moveBlock_apply 2 buf 0 crtCols _ i hunits Nat.two_pos, hsize]
  by_cases hlast : i < crtSize - crtCols
  · rw [if_neg fun h => Nat.not_lt.2 h.1 hlast, if_pos hlast, if_pos ⟨Nat.zero_le i, (Nat.zero_add _).symm ▸ hlast⟩]
    rfl
  · rw [if_neg hlast, if_pos ⟨Nat.not_lt.1 hlast, hi⟩]

/-- The screen as the switch leaves it: the cursor may be behind the last line. -/
structure Fits (s : Screen) (p : Page) : Prop where
  crtPos_lt : s.crtPos < crtSize + crtCols
  pos : p.pos = p.top * crtCols + s.crtPos
  cell : ∀ i < crtSize, s.crtBuf i = p.cells (p.top * crtCols + i)
  below : ∀ i ≥ (p.top + crtRows) * crtCols, p.cells i = blank

section Steps

variable {s : Screen} {p : Page}

theorem Shows.fits (h : Shows s p) : Fits s p :=
  ⟨h.crtPos_lt.trans_le (Nat.le_add_right _ _), h.pos, h.cell, h.below⟩

theorem Fits.scroll (h : Fits s p) : Shows s.scroll p.follow := by
  obtain ⟨hlt, hpos, hcell, hbelow⟩ := h
  unfold Screen.scroll Page.follow
  by_cases hend : s.crtPos ≥ crtSize
  · rw [if_pos hend]
    simp only [crtCols_eq, crtSize_eq] at hpos hlt hcell hend
    have htop : max p.top (p.pos / crtCols + 1 - crtRows) = p.top + 1 := by
      simp only [crtCols_eq, crtRows_eq]
      omega
    rw [htop]
    clear htop
    constructor <;> dsimp only
    · simp only [crtCols_eq, crtSize_eq]
      omega
    · simp only [crtCols_eq]
      omega
    · intro i hi
      rw [scrolled_apply _ _ hi]
      by_cases hlast : i < crtSize - crtCols
      · rw [if_pos hlast]
        simp only [crtCols_eq, crtSize_eq] at hlast ⊢
        rw [hcell _ (by omega)]
        congr 1
        omega
      · rw [if_neg hlast]
        simp only [crtCols_eq, crtRows_eq, crtSize_eq] at hlast hbelow ⊢
        rw [hbelow _ (by omega)]
    · intro i hi
      exact hbelow i (le_trans (Nat.mul_le_mul_right _ (by omega)) hi)
  · rw [if_neg hend]
    have htop : max p.top (p.pos / crtCols + 1 - crtRows) = p.top := by
      simp only [crtCols_eq, crtRows_eq, crtSize_eq] at hpos hend ⊢
      omega
    rw [htop]
    exact ⟨Nat.lt_of_not_le hend, hpos, hcell, hbelow⟩

/-- The cursor moves. -/
theorem Shows.move (h : Shows s p) {k pos : ℕ} (hk : k < crtSize + crtCols)
    (hpos : pos = p.top * crtCols + k) : Fits { s with crtPos := k } { p with pos := pos } :=
  ⟨hk, hpos, h.cell, h.below⟩

/-- A cell of the screen is written. -/
theorem Shows.write (h : Shows s p) {i : ℕ} (hi : i < crtSize) (c : BitVec 32) :
    ∃ s', s.write i c = some s' ∧ s'.crtPos = s.crtPos ∧
      Shows s' (p.put (p.top * crtCols + i) c) := by
  refine ⟨_, if_pos hi, rfl, h.crtPos_lt, h.pos, fun j hj => ?_, fun j hj => ?_⟩
  · by_cases hij : j = i
    · subst hij
      simp only [Page.put, Function.update_self]
    · simp only [Page.put]
      rw [Function.update_of_ne hij, Function.update_of_ne (by omega), h.cell j hj]
  · have hne : j ≠ p.top * crtCols + i := by
      simp only [Page.put, crtCols_eq, crtRows_eq, crtSize_eq] at hi hj ⊢
      omega
    exact (Function.update_of_ne hne _ _).trans (h.below j hj)

/-- Every write is within the screen, and the screen goes on to show the page. -/
theorem Shows.print (h : Shows s p) (c : BitVec 32) :
    ∃ s', cgaPutc s c = some s' ∧ Shows s' (p.print c) := by
  have hlt := h.crtPos_lt
  have hpos := h.pos
  unfold cgaPutc Page.print
  generalize withAttribute c = c
  dsimp only
  by_cases hback : low c = 8
  · rw [if_pos hback, if_pos hback]
    by_cases hroom : s.crtPos > 0
    · have hmove : p.top * crtCols + (s.crtPos - 1) = p.pos - 1 := by omega
      obtain ⟨s', hwrite, hcursor, hcells⟩ := h.write ((Nat.sub_le _ 1).trans_lt hlt)
        ((c &&& ~~~0xFF) ||| 32)
      rw [if_pos hroom, if_pos (by omega), hwrite]
      rw [hmove] at hcells
      refine ⟨Screen.scroll { s' with crtPos := s'.crtPos - 1 }, rfl, ?_⟩
      exact (hcells.move (by omega) (by rw [hcursor, ← hmove]; rfl)).scroll
    · rw [if_neg hroom, if_neg (by omega)]
      exact ⟨_, rfl, h.fits.scroll⟩
  · rw [if_neg hback, if_neg hback]
    by_cases hline : low c = 10
    · rw [if_pos hline, if_pos hline]
      refine ⟨_, rfl, (h.move ?_ ?_).scroll⟩
      · simp only [crtCols_eq, crtSize_eq] at hlt ⊢
        omega
      · simp only [crtCols_eq, crtSize_eq] at hlt hpos ⊢
        omega
    · rw [if_neg hline, if_neg hline]
      by_cases hreturn : low c = 13
      · rw [if_pos hreturn, if_pos hreturn]
        refine ⟨_, rfl, (h.move ?_ ?_).scroll⟩
        · omega
        · simp only [crtCols_eq] at hpos ⊢
          omega
      · obtain ⟨s', hwrite, hcursor, hcells⟩ := h.write hlt c
        rw [if_neg hreturn, if_neg hreturn, hwrite]
        rw [← hpos] at hcells
        refine ⟨Screen.scroll { s' with crtPos := (s'.crtPos + 1) % 2 ^ 16 }, rfl,
          (hcells.move ?_ ?_).scroll⟩
        · simp only [crtCols_eq, crtSize_eq, hcursor] at hlt ⊢
          omega
        · simp only [Page.put, crtCols_eq, crtSize_eq, hcursor] at hlt hpos ⊢
          omega

theorem Shows.scroll_eq (h : Shows s p) : s.scroll = s :=
  if_neg (Nat.not_le.2 h.crtPos_lt)

end Steps

/-! ## Runs -/

/-- The characters that come to the screen for a character. -/
def shown (c : BitVec 32) : List (BitVec 32) :=
  if low (withAttribute c) = 9 then List.replicate 5 32 else [c]

/-- The characters that come to the ports. -/
def sent (c : BitVec 32) : List (BitVec 32) :=
  if low (withAttribute c) = 9 then c :: List.replicate 5 32 else [c]

def toPort (c : BitVec 32) : UInt8 := UInt8.ofNat c.toNat

/-- The output is a page, and both ports have got the same characters. -/
structure Prints (o : Output) (p : Page) (bytes : List UInt8) : Prop where
  screen : Shows o.screen p
  serial : o.serial = bytes
  lpt : o.lpt = bytes

section Runs

variable {o : Output} {p : Page} {bytes : List UInt8}

theorem Prints.send (h : Prints o p bytes) (c : BitVec 32) :
    Prints (o.send c) p (bytes ++ [toPort c]) :=
  ⟨h.screen, congrArg (· ++ [toPort c]) h.serial, congrArg (· ++ [toPort c]) h.lpt⟩

theorem Prints.putOther (h : Prints o p bytes) (c : BitVec 32) :
    ∃ o', putOther o c = some o' ∧ Prints o' (p.print c) (bytes ++ [toPort c]) := by
  obtain ⟨hscreen, hserial, hlpt⟩ := h.send c
  obtain ⟨s', hprint, hshows⟩ := hscreen.print c
  refine ⟨{ o.send c with screen := s' }, ?_, hshows, hserial, hlpt⟩
  unfold Display.putOther
  dsimp only
  rw [hprint]
  rfl

/-- What one character is for the page and for the ports, a text is character by character. -/
theorem Prints.foldlM {put : Output → BitVec 32 → Option Output}
    (cells ports : BitVec 32 → List (BitVec 32))
    (hput : ∀ {o p bytes}, Prints o p bytes → ∀ c, ∃ o', put o c = some o' ∧
      Prints o' ((cells c).foldl Page.print p) (bytes ++ (ports c).map toPort))
    (h : Prints o p bytes) (cs : List (BitVec 32)) :
    ∃ o', cs.foldlM put o = some o' ∧
      Prints o' ((cs.flatMap cells).foldl Page.print p)
        (bytes ++ (cs.flatMap ports).map toPort) := by
  induction cs generalizing o p bytes with
  | nil => exact ⟨o, rfl, by simpa using h⟩
  | cons c cs ih =>
    obtain ⟨o', hstep, hprints⟩ := hput h c
    obtain ⟨o'', hputs, hlater⟩ := ih hprints
    refine ⟨o'', ?_, ?_⟩
    · rw [List.foldlM_cons, hstep]
      exact hputs
    · simpa using hlater

theorem Prints.putOthers (h : Prints o p bytes) (cs : List (BitVec 32)) :
    ∃ o', cs.foldlM Display.putOther o = some o' ∧
      Prints o' (cs.foldl Page.print p) (bytes ++ cs.map toPort) := by
  simpa using h.foldlM (fun c => [c]) (fun c => [c]) (fun h c => h.putOther c) cs

theorem Prints.consPutc (h : Prints o p bytes) (c : BitVec 32) :
    ∃ o', consPutc o c = some o' ∧
      Prints o' ((shown c).foldl Page.print p) (bytes ++ (sent c).map toPort) := by
  unfold Display.consPutc shown sent
  by_cases htab : low (withAttribute c) = 9
  · rw [if_pos htab, if_pos htab, if_pos htab]
    obtain ⟨o', hputs, hprints⟩ := (h.send c).putOthers (List.replicate 5 32)
    refine ⟨o', ?_, by simpa using hprints⟩
    rw [hputs]
    simp [hprints.screen.scroll_eq]
  · rw [if_neg htab, if_neg htab, if_neg htab]
    exact h.putOther c

/-- Whatever is printed, no write leaves the screen, and the screen shows the end of the page. The
ports get all of it, and for a tab the spaces too that the screen gets in its place. -/
theorem Prints.run (h : Prints o p bytes) (cs : List (BitVec 32)) :
    ∃ o', cs.foldlM Display.consPutc o = some o' ∧
      Prints o' ((cs.flatMap shown).foldl Page.print p) (bytes ++ (cs.flatMap sent).map toPort) :=
  h.foldlM shown sent (fun h c => h.consPutc c) cs

end Runs

/-- At whatever is printed from a cursor on the screen, no write leaves the screen, which shows the
end of the page, and both ports get the same bytes: a tab, and then the spaces that stand for it. -/
theorem consPutc_run (s : Screen) (h : s.crtPos < crtSize) (cs : List (BitVec 32)) :
    ∃ o, cs.foldlM consPutc ⟨[], [], s⟩ = some o ∧
      Shows o.screen ((cs.flatMap shown).foldl Page.print s.page) ∧
      o.serial = (cs.flatMap sent).map toPort ∧ o.lpt = (cs.flatMap sent).map toPort := by
  have hstart : Prints ⟨[], [], s⟩ s.page [] := ⟨s.shows_page h, rfl, rfl⟩
  obtain ⟨o, hrun, hscreen, hserial, hlpt⟩ := hstart.run cs
  exact ⟨o, hrun, hscreen, hserial, hlpt⟩

theorem consPutc_run_tab :
    ∃ o, [104, 9, 105].foldlM consPutc ⟨[], [], ⟨fun _ => blank, 0⟩⟩ = some o ∧
      Shows o.screen (([104, 9, 105].flatMap shown).foldl Page.print
        (Screen.page ⟨fun _ => blank, 0⟩)) ∧
      o.serial = ([104, 9, 105].flatMap sent).map toPort ∧
      o.lpt = ([104, 9, 105].flatMap sent).map toPort :=
  consPutc_run ⟨fun _ => blank, 0⟩ (by decide) [104, 9, 105]

/-! ## Lines -/

/-- A character that takes a cell. -/
def Plain (c : BitVec 32) : Prop := low (withAttribute c) ∉ [8, 9, 10, 13]

def cellOf (c : BitVec 32) : BitVec 16 := (withAttribute c).setWidth 16

section Lines

variable {p : Page} {c : BitVec 32} {cs : List (BitVec 32)}

theorem Plain.shown_eq (h : Plain c) : shown c = [c] :=
  if_neg fun htab => h (by simp [htab])

theorem Plain.print_eq (h : Plain c) :
    p.print c = Page.follow ⟨Function.update p.cells p.pos (cellOf c), p.pos + 1, p.top⟩ := by
  have hother : ∀ b ∈ [8, 9, 10, 13], low (withAttribute c) ≠ b :=
    fun b hb heq => h (heq ▸ hb)
  unfold Page.print
  dsimp only
  rw [if_neg (hother 8 (by simp)), if_neg (hother 10 (by simp)), if_neg (hother 13 (by simp))]
  rfl

/-- Plain characters take one cell after the other. -/
def overwrite (cells : Memory (BitVec 16)) (pos : ℕ) : List (BitVec 32) → Memory (BitVec 16)
  | [] => cells
  | c :: cs => overwrite (Function.update cells pos (cellOf c)) (pos + 1) cs

theorem overwrite_apply (cells : Memory (BitVec 16)) (pos i : ℕ) (cs : List (BitVec 32)) :
    overwrite cells pos cs i =
      if pos ≤ i ∧ i < pos + cs.length then (cs.map cellOf).getD (i - pos) blank
      else cells i := by
  induction cs generalizing cells pos with
  | nil => exact (if_neg (by simp)).symm
  | cons c cs ih =>
    rw [overwrite, ih, List.length_cons]
    by_cases hi : i = pos
    · subst hi
      rw [if_neg (by omega), if_pos (by omega), Function.update_self, Nat.sub_self]
      rfl
    · rw [Function.update_of_ne hi]
      by_cases hlater : pos + 1 ≤ i ∧ i < pos + 1 + cs.length
      · obtain ⟨k, rfl⟩ : ∃ k, i = pos + 1 + k := Nat.exists_eq_add_of_le hlater.1
        have hk : pos + 1 + k - pos = k + 1 := by omega
        rw [if_pos hlater, if_pos (by omega), hk, Nat.add_sub_cancel_left]
        rfl
      · rw [if_neg hlater, if_neg (by omega)]

theorem print_plain (hcs : ∀ c ∈ cs, Plain c) (htop : p.pos / crtCols + 1 - crtRows ≤ p.top) :
    cs.foldl Page.print p =
      Page.follow ⟨overwrite p.cells p.pos cs, p.pos + cs.length, p.top⟩ := by
  induction cs generalizing p with
  | nil =>
    obtain ⟨cells, pos, top⟩ := p
    simp only [List.foldl_nil, overwrite, Page.follow, List.length_nil, Nat.add_zero]
    rw [max_eq_left htop]
  | cons c cs ih =>
    have hmore : (p.pos + 1) / crtCols ≤ (p.pos + 1 + cs.length) / crtCols :=
      Nat.div_le_div_right (by omega)
    rw [List.foldl_cons, (hcs c List.mem_cons_self).print_eq,
      ih (fun d hd => hcs d (List.mem_cons_of_mem c hd)) (le_max_right ..)]
    simp only [Page.follow, overwrite, List.length_cons]
    congr 1
    · omega
    · rw [max_assoc]
      congr 1
      rw [Nat.add_comm cs.length, ← Nat.add_assoc]
      omega

theorem print_newline (p : Page) :
    p.print 10 = Page.follow { p with pos := (p.pos / crtCols + 1) * crtCols } := rfl

/-- A line that is not too long takes one line of the page. -/
theorem print_line {k : ℕ} (hcs : ∀ c ∈ cs, Plain c) (hlength : cs.length < crtCols)
    (hpos : p.pos = k * crtCols) (htop : k + 1 - crtRows ≤ p.top) :
    (cs ++ [10]).foldl Page.print p =
      ⟨overwrite p.cells p.pos cs, (k + 1) * crtCols, max p.top (k + 2 - crtRows)⟩ := by
  have hpositive : 0 < crtCols := by decide
  have hstart : p.pos / crtCols = k := by rw [hpos, Nat.mul_div_cancel _ hpositive]
  have hend : (p.pos + cs.length) / crtCols = k := by
    rw [hpos, Nat.add_comm, Nat.add_mul_div_right _ _ hpositive, Nat.div_eq_of_lt hlength,
      Nat.zero_add]
  rw [List.foldl_append, print_plain hcs (by rwa [hstart]), List.foldl_cons, List.foldl_nil,
    print_newline]
  simp only [Page.follow, hend, max_eq_left htop]
  rw [Nat.mul_div_cancel _ hpositive]

end Lines

/-- Lines with the character that ends each. -/
def text (lines : List (List (BitVec 32))) : List (BitVec 32) := lines.flatMap (· ++ [10])

/-- The cell at a place of a line; behind its end there is nothing. -/
def lineCell (lines : List (List (BitVec 32))) (m j : ℕ) : BitVec 16 :=
  ((lines.getD m []).map cellOf).getD j blank

theorem lineCell_append {lines : List (List (BitVec 32))} (l : List (BitVec 32)) {m : ℕ} (j : ℕ)
    (hm : m < lines.length) : lineCell (lines ++ [l]) m j = lineCell lines m j := by
  rw [lineCell, List.getD_append _ _ _ _ hm, lineCell]

theorem lineCell_last (lines : List (List (BitVec 32))) (l : List (BitVec 32)) (j : ℕ) :
    lineCell (lines ++ [l]) lines.length j = (l.map cellOf).getD j blank := by
  simp [lineCell]

/-- The lines are on the page from its line `k` on. -/
structure HasLines (k : ℕ) (top : ℕ) (lines : List (List (BitVec 32))) (p : Page) : Prop where
  pos : p.pos = (k + lines.length) * crtCols
  top : p.top = max top (k + lines.length + 1 - crtRows)
  below : ∀ i ≥ p.pos, p.cells i = blank
  line : ∀ m < lines.length, ∀ j < crtCols, p.cells ((k + m) * crtCols + j) = lineCell lines m j

theorem HasLines.snoc {k top : ℕ} {p : Page} {lines : List (List (BitVec 32))}
    (h : HasLines k top lines p) {l : List (BitVec 32)} (hplain : ∀ c ∈ l, Plain c)
    (hlength : l.length < crtCols) :
    HasLines k top (lines ++ [l]) ((l ++ [10]).foldl Page.print p) := by
  obtain ⟨hpos, htop, hbelow, hline⟩ := h
  have hlater : (lines ++ [l]).length = lines.length + 1 := List.length_append
  rw [print_line hplain hlength hpos (by rw [htop]; exact le_max_right ..)]
  constructor
  · rw [hlater]
    rfl
  · simp only [hlater, htop, max_assoc]
    congr 1
    omega
  · intro i hi
    simp only [crtCols_eq] at hpos hlength hi ⊢
    rw [overwrite_apply, if_neg (by omega)]
    exact hbelow i (by omega)
  · intro m hm j hj
    dsimp only
    rw [hlater] at hm
    by_cases hlast : m = lines.length
    · subst hlast
      rw [lineCell_last, overwrite_apply, ← hpos, Nat.add_sub_cancel_left,
        hbelow _ (Nat.le_add_right _ _)]
      split
      · rfl
      · rename_i hout
        exact (List.getD_eq_default _ _ (by rw [List.length_map]; omega)).symm
    · have hearlier : ¬ p.pos ≤ (k + m) * crtCols + j := by
        simp only [crtCols_eq] at hpos hj ⊢
        omega
      have hm' : m < lines.length := by omega
      rw [overwrite_apply, if_neg fun hin => hearlier hin.1, hline m hm' j hj,
        lineCell_append l j hm']

theorem hasLines_print {k : ℕ} {p : Page} (lines : List (List (BitVec 32)))
    (hlines : ∀ l ∈ lines, l.length < crtCols ∧ ∀ c ∈ l, Plain c) (hpos : p.pos = k * crtCols)
    (htop : k + 1 - crtRows ≤ p.top) (hbelow : ∀ i ≥ p.pos, p.cells i = blank) :
    HasLines k p.top lines ((text lines).foldl Page.print p) := by
  induction lines using List.reverseRecOn with
  | nil =>
    exact ⟨hpos, (max_eq_left htop).symm, hbelow, fun m hm => absurd hm (Nat.not_lt_zero m)⟩
  | append_singleton lines l ih =>
    obtain ⟨hlength, hplain⟩ := hlines l (by simp)
    have hone : text (lines ++ [l]) = text lines ++ (l ++ [10]) := by simp [text]
    rw [hone, List.foldl_append]
    exact (ih fun l' hl' => hlines l' (List.mem_append_left _ hl')).snoc hplain hlength

theorem shown_text {lines : List (List (BitVec 32))}
    (hlines : ∀ l ∈ lines, l.length < crtCols ∧ ∀ c ∈ l, Plain c) :
    (text lines).flatMap shown = text lines := by
  have hall : ∀ c ∈ text lines, shown c = [c] := by
    intro c hc
    obtain ⟨l, hl, hcl⟩ := List.mem_flatMap.1 hc
    obtain hcl | hcl := List.mem_append.1 hcl
    · exact ((hlines l hl).2 c hcl).shown_eq
    · rw [List.mem_singleton.1 hcl]
      rfl
  rw [List.flatMap_congr hall, List.flatMap_singleton']

/-- When enough lines have been printed, and none was too long, the screen shows the last of them,
each in a line of its own, and the cursor is in the empty line below them. -/
theorem last_lines (s : Screen) {k : ℕ} (hpos : s.crtPos = k * crtCols) (hk : k < crtRows)
    (hblank : ∀ i < crtSize, s.crtPos ≤ i → s.crtBuf i = blank) (lines : List (List (BitVec 32)))
    (hlines : ∀ l ∈ lines, l.length < crtCols ∧ ∀ c ∈ l, Plain c)
    (hmany : crtRows - 1 ≤ lines.length) :
    ∃ o, (text lines).foldlM consPutc ⟨[], [], s⟩ = some o ∧
      o.screen.crtPos = (crtRows - 1) * crtCols ∧
      ∀ r < crtRows, ∀ j < crtCols, o.screen.crtBuf (r * crtCols + j) =
        lineCell lines (lines.length + 1 - crtRows + r) j := by
  have hlt : s.crtPos < crtSize := by
    simp only [crtCols_eq, crtRows_eq, crtSize_eq] at hpos hk ⊢
    omega
  have hstart : Prints ⟨[], [], s⟩ s.page [] := ⟨s.shows_page hlt, rfl, rfl⟩
  obtain ⟨o, hrun, hscreen, -⟩ := hstart.run (text lines)
  rw [shown_text hlines] at hscreen
  have hbelow : ∀ i ≥ s.page.pos, s.page.cells i = blank := by
    intro i hi
    by_cases hin : i < crtSize
    · exact (if_pos hin).trans (hblank i hin hi)
    · exact if_neg hin
  obtain ⟨hend, htop, hrest, hline⟩ :=
    hasLines_print lines hlines hpos (by rw [Nat.sub_eq_zero_of_le hk]; exact Nat.zero_le _) hbelow
  have htop_eq : s.page.top = 0 := rfl
  rw [htop_eq, Nat.zero_max] at htop
  have hcursor := hscreen.pos
  refine ⟨o, hrun, ?_, fun r hr j hj => ?_⟩
  · rw [hend, htop] at hcursor
    simp only [crtCols_eq, crtRows_eq] at *
    omega
  · have hin : r * crtCols + j < crtSize := by
      simp only [crtCols_eq, crtRows_eq, crtSize_eq] at hr hj ⊢
      omega
    have hplace : (k + lines.length + 1 - crtRows) * crtCols + (r * crtCols + j) =
        (k + (lines.length + 1 - crtRows + r)) * crtCols + j := by
      simp only [crtCols_eq, crtRows_eq] at hmany ⊢
      omega
    rw [hscreen.cell _ hin, htop, hplace]
    by_cases hlast : lines.length + 1 - crtRows + r < lines.length
    · exact hline _ hlast j hj
    · have hnone : lines.getD (lines.length + 1 - crtRows + r) [] = [] :=
        List.getD_eq_default _ _ (Nat.not_lt.1 hlast)
      rw [lineCell, hnone, hrest _ (by simp only [crtCols_eq] at hend ⊢; omega)]
      rfl

theorem short_lines :
    ∀ l ∈ List.replicate 30 [97], l.length < crtCols ∧ ∀ c ∈ l, Plain c := by
  intro l hl
  rw [List.eq_of_mem_replicate hl]
  exact ⟨by decide, by simp [Plain, withAttribute, low]⟩

theorem last_lines_thirty :
    ∃ o, (text (List.replicate 30 [97])).foldlM consPutc ⟨[], [], ⟨fun _ => blank, 0⟩⟩ = some o ∧
      o.screen.crtPos = (crtRows - 1) * crtCols ∧
      ∀ r < crtRows, ∀ j < crtCols, o.screen.crtBuf (r * crtCols + j) =
        lineCell (List.replicate 30 [97])
          ((List.replicate 30 [97]).length + 1 - crtRows + r) j :=
  last_lines ⟨fun _ => blank, 0⟩ (k := 0) rfl (by decide) (fun i _ _ => rfl) _ short_lines
    (by decide)

end Courses.Jos.Display
