import Courses.Lib.Bisection
import Mathlib.Tactic

/-!
# The search of `kdebug.c`

`stab_binsearch` over a table of stabs. A table that fits into memory has less than `2 ^ 29`
stabs, so the sum of two indices is an `int`. The address is a number of 32 bits, and
`addr++` wraps around.
-/
namespace Courses.Jos

/-- `struct Stab`, as far as the search reads it. -/
structure Stab where
  nType : UInt8
  nValue : UInt32
  deriving DecidableEq

/-- The search reads no stab that is not there and does not run on, or it faults. -/
inductive Fault
  | outOfTable
  | outOfFuel
  deriving DecidableEq

/-- `stabs[i]` -/
def stabAt (stabs : List Stab) (i : ℤ) : Except Fault Stab :=
  match stabs[i.toNat]? with
  | some stab => if 0 ≤ i then .ok stab else .error .outOfTable
  | none => .error .outOfTable

/-- `while (m >= l && stabs[m].n_type != type) m--` -/
def scanBack (stabs : List Stab) (type l : ℤ) : ℕ → ℤ → Except Fault ℤ
  | 0, _ => .error .outOfFuel
  | fuel + 1, m =>
    if l ≤ m then do
      let stab ← stabAt stabs m
      if (stab.nType.toNat : ℤ) ≠ type then scanBack stabs type l fuel (m - 1) else return m
    else return m

/-- The variables of `stab_binsearch`. -/
structure Search where
  regionLeft : ℤ
  regionRight : ℤ
  l : ℤ
  r : ℤ
  anyMatches : Bool
  addr : UInt32
  deriving DecidableEq

namespace Search

/-- The actual binary search: the address is compared with the one of the stab at `m`. -/
def compare (s : Search) (trueM m : ℤ) (stab : Stab) : Search :=
  if stab.nValue < s.addr then
    { s with anyMatches := true, regionLeft := m, l := trueM + 1 }
  else if stab.nValue > s.addr then
    { s with anyMatches := true, regionRight := m - 1, r := m - 1 }
  else { s with anyMatches := true, regionLeft := m, l := m, addr := s.addr + 1 }

/-- One round of the outer loop. -/
def round (stabs : List Stab) (type : ℤ) (s : Search) : Except Fault Search := do
  let trueM := (s.l + s.r).tdiv 2
  let m ← scanBack stabs type s.l (stabs.length + 1) trueM
  if m < s.l then return { s with l := trueM + 1 }
  else return s.compare trueM m (← stabAt stabs m)

/-- `while (l <= r)` -/
def loop (stabs : List Stab) (type : ℤ) : ℕ → Search → Except Fault Search
  | 0, _ => .error .outOfFuel
  | fuel + 1, s =>
    if s.l ≤ s.r then do
      loop stabs type fuel (← s.round stabs type)
    else return s

/-- What is done after the loop. -/
def finish (stabs : List Stab) (type : ℤ) (s : Search) : Except Fault (ℤ × ℤ) :=
  if !s.anyMatches then return (s.regionLeft, s.regionLeft - 1)
  else do
    let l ← scanBack stabs type (s.regionLeft + 1) (stabs.length + 1) s.regionRight
    return (l, s.regionRight)

end Search

/-- The values of `*region_left` and `*region_right` after the search. -/
def stabBinsearch (stabs : List Stab) (regionLeft regionRight type : ℤ) (addr : UInt32) :
    Except Fault (ℤ × ℤ) := do
  let s ← Search.loop stabs type (2 * stabs.length + 2)
    ⟨regionLeft, regionRight, regionLeft, regionRight, false, addr⟩
  s.finish stabs type

end Courses.Jos

/-!
# What the search for a stab finds

The outer loop bisects the range for the address until it comes to a stab with exactly this
address. From there on it bisects for the address behind it, so that it goes on if there is a
stab with that address as well.
-/
namespace Courses.Jos

open Courses.Lib Relation

variable (stabs : List Stab) (left right type : ℤ)

/-! ## The entries of a type -/

/-- A stab of the type in the range. -/
def Entry (i : ℤ) : Prop :=
  left ≤ i ∧ i ≤ right ∧ ∃ stab, stabAt stabs i = .ok stab ∧ (stab.nType.toNat : ℤ) = type

def nValue (i : ℤ) : ℕ :=
  match stabAt stabs i with
  | .ok stab => stab.nValue.toNat
  | .error _ => 0

/-- The entries have non-decreasing values. -/
def SortedEntries : Prop :=
  ∀ i j, Entry stabs left right type i → Entry stabs left right type j → i ≤ j →
    nValue stabs i ≤ nValue stabs j

variable {stabs left right type}

theorem stabAt_ok {i : ℤ} (hle : 0 ≤ i) (hlt : i < stabs.length) :
    ∃ stab, stabAt stabs i = .ok stab := by
  have hi : i.toNat < stabs.length := by omega
  exact ⟨stabs[i.toNat], by simp [stabAt, hi, hle]⟩

theorem nValue_of_ok {i : ℤ} {stab : Stab} (h : stabAt stabs i = .ok stab) :
    nValue stabs i = stab.nValue.toNat := by
  simp [nValue, h]

theorem nValue_lt (i : ℤ) : nValue stabs i < 2 ^ 32 := by
  rw [nValue]
  split
  · exact UInt32.toNat_lt _
  · norm_num

/-! ## The scan back -/

/-- What the scan from `m` down to `l` ends at. -/
structure ScannedBack (stabs : List Stab) (type l m k : ℤ) : Prop where
  upper : k ≤ m
  lower : l ≤ m → l - 1 ≤ k
  stays : m < l → k = m
  found : l ≤ k → ∃ stab, stabAt stabs k = .ok stab ∧ (stab.nType.toNat : ℤ) = type
  skipped : ∀ i, k < i → i ≤ m → ∀ stab, stabAt stabs i = .ok stab →
    (stab.nType.toNat : ℤ) ≠ type

theorem scanBack_ok {l m : ℤ} (fuel : ℕ) (type : ℤ) (hl : 0 ≤ l) (hm : m < stabs.length)
    (hfuel : m - l + 1 < fuel) (hpos : 0 < fuel) :
    ∃ k, scanBack stabs type l fuel m = .ok k ∧ ScannedBack stabs type l m k := by
  induction fuel generalizing m with
  | zero => omega
  | succ fuel ih =>
    rw [scanBack]
    by_cases hle : l ≤ m
    · obtain ⟨stab, hstab⟩ := stabAt_ok (hl.trans hle) hm
      by_cases htype : (stab.nType.toNat : ℤ) = type
      · refine ⟨m, ?_, le_rfl, by omega, by omega, fun _ => ⟨stab, hstab, htype⟩, by omega⟩
        simp [hle, hstab, htype, bind, Except.bind, pure, Except.pure]
      · obtain ⟨k, hscan, hk⟩ := ih (m := m - 1) (by omega) (by omega) (by omega)
        have hupper := hk.upper
        refine ⟨k, ?_, by omega, ?_, by omega, hk.found, ?_⟩
        · simp [hle, hstab, htype, bind, Except.bind, hscan]
        · intro _
          by_cases hl' : l ≤ m - 1
          · exact hk.lower hl'
          · have hstays := hk.stays (by omega)
            omega
        · intro i hki him stab' hstab'
          by_cases hi : i = m
          · subst hi
            rw [hstab] at hstab'
            cases hstab'
            exact htype
          · exact hk.skipped i hki (by omega) stab' hstab'
    · refine ⟨m, ?_, le_rfl, by omega, fun _ => rfl, by omega, by omega⟩
      simp [hle, pure, Except.pure]

/-! ## A round -/

/-- The search after a stab with exactly the address was found. -/
def Search.matched (s : Search) (m : ℤ) : Search :=
  { s with anyMatches := true, regionLeft := m, l := m, addr := s.addr + 1 }

/-- What a round does, by the last entry up to the middle. -/
inductive Moved (stabs : List Stab) (left right type : ℤ) (s : Search) : Search → Prop
  | skip : (∀ i, s.l ≤ i → i ≤ (s.l + s.r) / 2 → ¬ Entry stabs left right type i) →
    Moved stabs left right type s { s with l := (s.l + s.r) / 2 + 1 }
  | up {m : ℤ} : LastEntry (Entry stabs left right type) s.l ((s.l + s.r) / 2) m →
    nValue stabs m < s.addr.toNat → Moved stabs left right type s
      { s with anyMatches := true, regionLeft := m, l := (s.l + s.r) / 2 + 1 }
  | down {m : ℤ} : LastEntry (Entry stabs left right type) s.l ((s.l + s.r) / 2) m →
    s.addr.toNat < nValue stabs m → Moved stabs left right type s
      { s with anyMatches := true, regionRight := m - 1, r := m - 1 }
  | found {m : ℤ} : LastEntry (Entry stabs left right type) s.l ((s.l + s.r) / 2) m →
    nValue stabs m = s.addr.toNat → Moved stabs left right type s (s.matched m)

variable {s s' : Search}

theorem compare_moved {m : ℤ} {stab : Stab}
    (hm : LastEntry (Entry stabs left right type) s.l ((s.l + s.r) / 2) m)
    (hstab : stabAt stabs m = .ok stab) :
    Moved stabs left right type s (s.compare ((s.l + s.r) / 2) m stab) := by
  have hvalue := nValue_of_ok hstab
  rw [Search.compare]
  split_ifs with hless hgreater
  · exact .up hm (by rw [hvalue]; exact UInt32.lt_iff_toNat_lt.1 hless)
  · exact .down hm (by rw [hvalue]; exact UInt32.lt_iff_toNat_lt.1 hgreater)
  · apply Moved.found hm
    rw [hvalue]
    rw [gt_iff_lt, UInt32.lt_iff_toNat_lt] at hgreater
    rw [UInt32.lt_iff_toNat_lt] at hless
    omega

theorem round_moved (type : ℤ) (hleft : 0 ≤ left) (hright : right < stabs.length) (hl : left ≤ s.l)
    (hr : s.r ≤ right) (hle : s.l ≤ s.r) :
    ∃ s', s.round stabs type = .ok s' ∧ Moved stabs left right type s s' := by
  have hmid : (s.l + s.r).tdiv 2 = (s.l + s.r) / 2 := Int.tdiv_eq_ediv_of_nonneg (by omega)
  obtain ⟨k, hscan, hk⟩ := scanBack_ok (stabs.length + 1) type
    (by omega : 0 ≤ s.l) (by omega : (s.l + s.r) / 2 < stabs.length) (by omega) (by omega)
  have hupper := hk.upper
  by_cases hlow : k < s.l
  · refine ⟨{ s with l := (s.l + s.r) / 2 + 1 }, ?_, .skip ?_⟩
    · simp [Search.round, hmid, hscan, hlow, bind, Except.bind, pure, Except.pure]
    · rintro i hil him ⟨-, -, stab, hstab, htype⟩
      exact hk.skipped i (by omega) him stab hstab htype
  · obtain ⟨stab, hstab, htype⟩ := hk.found (not_lt.1 hlow)
    refine ⟨s.compare ((s.l + s.r) / 2) k stab, ?_, compare_moved ?_ hstab⟩
    · simp [Search.round, hmid, hscan, hlow, hstab, bind, Except.bind, pure, Except.pure]
    · refine ⟨not_lt.1 hlow, hupper, ⟨by omega, by omega, stab, hstab, htype⟩, ?_⟩
      rintro i hki him ⟨-, -, stab', hstab', htype'⟩
      exact hk.skipped i hki him stab' hstab' htype'

/-! ## The loop -/

/-- All rounds of the loop. -/
inductive Run (stabs : List Stab) (left right type : ℤ) : Search → Search → Prop
  | done {s : Search} : s.r < s.l → Run stabs left right type s s
  | next {s s₁ s' : Search} : s.l ≤ s.r → Moved stabs left right type s s₁ →
    Run stabs left right type s₁ s' → Run stabs left right type s s'

/-- A round that does not make the interval smaller has found the stab that the interval begins
with, and is not going to find it again. -/
def Search.measure (stabs : List Stab) (s : Search) : ℕ :=
  2 * (s.r + 1 - s.l).toNat + if nValue stabs s.l = s.addr.toNat then 1 else 0

theorem addr_succ_ne (addr : UInt32) : (addr + 1).toNat ≠ addr.toNat := by
  rw [UInt32.toNat_add]
  have hlt := addr.toNat_lt
  simp
  omega

theorem Moved.measure_lt (h : Moved stabs left right type s s') (hle : s.l ≤ s.r) :
    s'.measure stabs < s.measure stabs := by
  cases h with
  | skip =>
    simp only [Search.measure]
    split_ifs <;> omega
  | up =>
    simp only [Search.measure]
    split_ifs <;> omega
  | down hm =>
    have hupper := hm.upper
    simp only [Search.measure]
    split_ifs <;> omega
  | @found m hm hvalue =>
    have hlower := hm.lower
    have hne : nValue stabs (s.matched m).l ≠ (s.matched m).addr.toNat := by
      show nValue stabs m ≠ (s.addr + 1).toNat
      rw [hvalue]
      exact (addr_succ_ne s.addr).symm
    rw [Search.measure, Search.measure, if_neg hne]
    show 2 * (s.r + 1 - m).toNat + 0 < _
    by_cases hl : m = s.l
    · rw [← hl, if_pos hvalue]
      omega
    · omega

theorem Moved.inRange (h : Moved stabs left right type s s') (hl : left ≤ s.l)
    (hr : s.r ≤ right) (hle : s.l ≤ s.r) : left ≤ s'.l ∧ s'.r ≤ right := by
  cases h with
  | skip => exact ⟨by show left ≤ (s.l + s.r) / 2 + 1; omega, hr⟩
  | up => exact ⟨by show left ≤ (s.l + s.r) / 2 + 1; omega, hr⟩
  | @down m hm =>
    have hupper := hm.upper
    exact ⟨hl, by show m - 1 ≤ right; omega⟩
  | found hm => exact ⟨hl.trans hm.lower, hr⟩

theorem loop_run (type : ℤ) (hleft : 0 ≤ left) (hright : right < stabs.length) {fuel : ℕ}
    (hl : left ≤ s.l) (hr : s.r ≤ right) (hfuel : s.measure stabs < fuel) :
    ∃ s', s.loop stabs type fuel = .ok s' ∧ Run stabs left right type s s' := by
  induction fuel generalizing s with
  | zero => omega
  | succ fuel ih =>
    rw [Search.loop]
    by_cases hle : s.l ≤ s.r
    · obtain ⟨s₁, hround, hmoved⟩ := round_moved type hleft hright hl hr hle
      have hlt := hmoved.measure_lt hle
      obtain ⟨hl₁, hr₁⟩ := hmoved.inRange hl hr hle
      obtain ⟨s', hloop, hrun⟩ := ih hl₁ hr₁ (by omega)
      refine ⟨s', ?_, .next hle hmoved hrun⟩
      simp [hle, hround, bind, Except.bind, hloop]
    · exact ⟨s, by simp [hle, pure, Except.pure], .done (not_le.1 hle)⟩

/-! ## Until an exact match -/

/-- The loop has bisected the range for the same address all along. -/
structure Tracks (stabs : List Stab) (left right type : ℤ) (s s' : Search) : Prop where
  bisected : ReflTransGen (Bisect (Entry stabs left right type) (nValue stabs) s.addr.toNat)
    (s.l, s.r) (s'.l, s'.r)
  addr : s'.addr = s.addr
  regionRight : s.regionRight = s.r → s'.regionRight = s'.r
  regionLeft : s'.regionLeft = s.regionLeft ∧
      (∀ i, s.l ≤ i → i < s'.l → ¬ Entry stabs left right type i) ∨
    LastEntry (Entry stabs left right type) s.l (s'.l - 1) s'.regionLeft
  anyMatches : s'.anyMatches = true ↔ s.anyMatches = true ∨
    (∃ i, s.l ≤ i ∧ i < s'.l ∧ Entry stabs left right type i) ∨ s'.r < s.r

theorem Tracks.refl (s : Search) : Tracks stabs left right type s s := by
  constructor
  · exact .refl
  · rfl
  · exact id
  · exact .inl ⟨rfl, by omega⟩
  · constructor
    · exact .inl
    · rintro (h | ⟨i, hle, hlt, -⟩ | h)
      · exact h
      · omega
      · omega

variable (hsorted : SortedEntries stabs left right type)

include hsorted

theorem Moved.tracks (h : Moved stabs left right type s s') (hle : s.l ≤ s.r) :
    Tracks stabs left right type s s' ∨
      ∃ m, LastEntry (Entry stabs left right type) s.l ((s.l + s.r) / 2) m ∧
        nValue stabs m = s.addr.toNat ∧ s' = s.matched m := by
  cases h with
  | skip hnone =>
    have hnone' : ∀ i, s.l ≤ i → i < (s.l + s.r) / 2 + 1 → ¬ Entry stabs left right type i :=
      fun i hl hlt => hnone i hl (by omega)
    left
    constructor
    · exact .single (.up hle fun i hl hm hentry => absurd hentry (hnone i hl hm))
    · rfl
    · exact id
    · exact .inl ⟨rfl, hnone'⟩
    · constructor
      · exact .inl
      · rintro (h | ⟨i, hl, hlt, hentry⟩ | h)
        · exact h
        · exact absurd hentry (hnone' i hl hlt)
        · exact absurd h (lt_irrefl _)
  | @up m hm hless =>
    have hmid : m < (s.l + s.r) / 2 + 1 := Int.lt_add_one_iff.2 hm.upper
    left
    constructor
    · apply ReflTransGen.single
      apply Bisect.up hle
      intro i hl hi hentry
      by_cases him : i ≤ m
      · exact (hsorted i m hentry hm.entry him).trans_lt hless
      · exact absurd hentry (hm.noneAfter i (not_le.1 him) hi)
    · rfl
    · exact id
    · right
      show LastEntry _ s.l ((s.l + s.r) / 2 + 1 - 1) m
      rwa [add_sub_cancel_right]
    · exact iff_of_true rfl (.inr (.inl ⟨m, hm.lower, hmid, hm.entry⟩))
  | @down m hm hgreater =>
    have hlt : m - 1 < s.r := by
      have hupper := hm.upper
      omega
    left
    constructor
    · exact .single (.down hle hm hgreater)
    · rfl
    · exact fun _ => rfl
    · exact .inl ⟨rfl, fun i hl hi => absurd hl (not_le.2 hi)⟩
    · exact iff_of_true rfl (.inr (.inr hlt))
  | found hm hvalue => exact .inr ⟨_, hm, hvalue, rfl⟩

theorem Tracks.trans {s₁ : Search} (h : Tracks stabs left right type s s₁)
    (h' : Tracks stabs left right type s₁ s') : Tracks stabs left right type s s' := by
  have hbisected := h'.bisected
  rw [h.addr] at hbisected
  have hfirst := narrowed hsorted h.bisected
  have hsecond := narrowed hsorted hbisected
  have hl : s.l ≤ s₁.l := hfirst.lower
  have hr : s₁.r ≤ s.r := hfirst.upper
  have hl' : s₁.l ≤ s'.l := hsecond.lower
  have hr' : s'.r ≤ s₁.r := hsecond.upper
  constructor
  · exact h.bisected.trans hbisected
  · exact h'.addr.trans h.addr
  · exact fun hright => h'.regionRight (h.regionRight hright)
  · obtain ⟨hsame', hnone'⟩ | hlast' := h'.regionLeft
    · obtain ⟨hsame, hnone⟩ | hlast := h.regionLeft
      · refine .inl ⟨hsame'.trans hsame, fun i hi hlt => ?_⟩
        by_cases hi' : i < s₁.l
        · exact hnone i hi hi'
        · exact hnone' i (not_lt.1 hi') hlt
      · right
        rw [hsame']
        refine ⟨hlast.lower, by have := hlast.upper; omega, hlast.entry, fun i hi hlt => ?_⟩
        by_cases hi' : i < s₁.l
        · exact hlast.noneAfter i hi (by omega)
        · exact hnone' i (not_lt.1 hi') (by omega)
    · exact .inr ⟨hl.trans hlast'.lower, hlast'.upper, hlast'.entry, hlast'.noneAfter⟩
  · rw [h'.anyMatches, h.anyMatches]
    constructor
    · rintro ((hany | ⟨i, hi, hlt, hentry⟩ | hlt) | ⟨i, hi, hlt, hentry⟩ | hlt)
      · exact .inl hany
      · exact .inr (.inl ⟨i, hi, by omega, hentry⟩)
      · exact .inr (.inr (by omega))
      · exact .inr (.inl ⟨i, by omega, hlt, hentry⟩)
      · exact .inr (.inr (by omega))
    · rintro (hany | ⟨i, hi, hlt, hentry⟩ | hlt)
      · exact .inl (.inl hany)
      · by_cases hi' : i < s₁.l
        · exact .inl (.inr (.inl ⟨i, hi, hi', hentry⟩))
        · exact .inr (.inl ⟨i, not_lt.1 hi', hlt, hentry⟩)
      · by_cases hlt' : s'.r < s₁.r
        · exact .inr (.inr hlt')
        · exact .inl (.inr (.inr (by omega)))

/-- The loop ends without an exact match, or comes to one and goes on from there. -/
theorem Run.tracks (h : Run stabs left right type s s') :
    Tracks stabs left right type s s' ∧ s'.r < s'.l ∨
      ∃ s₁ m, Tracks stabs left right type s s₁ ∧ s₁.l ≤ s₁.r ∧
        LastEntry (Entry stabs left right type) s₁.l ((s₁.l + s₁.r) / 2) m ∧
          nValue stabs m = s.addr.toNat ∧ Run stabs left right type (s₁.matched m) s' := by
  induction h with
  | @done s hlt => exact .inl ⟨.refl s, hlt⟩
  | @next s s₁ s' hle hmoved hrun ih =>
    obtain hfirst | ⟨m, hm, hvalue, rfl⟩ := hmoved.tracks hsorted hle
    · obtain ⟨hlater, hlt⟩ | ⟨s₂, m, hlater, hle', hm, hvalue, hrun'⟩ := ih
      · exact .inl ⟨hfirst.trans hsorted hlater, hlt⟩
      · rw [hfirst.addr] at hvalue
        exact .inr ⟨s₂, m, hfirst.trans hsorted hlater, hle', hm, hvalue, hrun'⟩
    · exact .inr ⟨s, m, .refl s, hle, hm, hvalue, hrun⟩

end Courses.Jos
