import Courses.Jos.StabSearch

/-!
# The region around an address

Where the search ends without an exact match it brackets the address, unless all stabs of the
type are behind it. After an exact match it is the address behind it that is looked for: a stab
that has just that address is taken for the one that was searched.
-/
namespace Courses.Jos

open Courses.Lib Relation

variable {stabs : List Stab} {left right type : ℤ} {addr : UInt32} {s s₁ s' : Search} {m e : ℤ}

/-! ## The last scan -/

/-- The scan from `*region_right` goes no further than `*region_left`. -/
theorem finish_ok (type : ℤ) (hany : s.anyMatches = true) (hleft : 0 ≤ s.regionLeft + 1)
    (hright : s.regionRight < stabs.length) :
    ∃ k, s.finish stabs type = .ok (k, s.regionRight) ∧ min s.regionLeft s.regionRight ≤ k ∧
      ((∀ i, s.regionLeft < i → i ≤ s.regionRight → ∀ stab, stabAt stabs i = .ok stab →
        (stab.nType.toNat : ℤ) ≠ type) → k = min s.regionLeft s.regionRight) := by
  obtain ⟨k, hscan, hk⟩ := scanBack_ok (stabs.length + 1) type hleft hright (by omega) (by omega)
  refine ⟨k, by simp [Search.finish, hany, hscan, bind, Except.bind, pure, Except.pure], ?_, ?_⟩
  · by_cases hle : s.regionLeft + 1 ≤ s.regionRight
    · have hlower := hk.lower hle
      omega
    · have hstays := hk.stays (not_le.1 hle)
      omega
  · intro hnone
    have hupper := hk.upper
    by_cases hle : s.regionLeft + 1 ≤ s.regionRight
    · have hlower := hk.lower hle
      by_cases hkl : s.regionLeft + 1 ≤ k
      · obtain ⟨stab, hstab, htype⟩ := hk.found hkl
        exact absurd htype (hnone k hkl hupper stab hstab)
      · omega
    · have hstays := hk.stays (not_le.1 hle)
      omega

/-- What the comment on `stab_binsearch` says of the two numbers. -/
structure Brackets (stabs : List Stab) (left right type : ℤ) (addr : UInt32) (region : ℤ × ℤ) :
    Prop where
  matched : (∃ i, Entry stabs left right type i ∧ nValue stabs i ≤ addr.toNat) →
    IsGreatest {i | Entry stabs left right type i ∧ nValue stabs i ≤ addr.toNat} region.1 ∧
      (IsLeast {j | Entry stabs left right type j ∧ region.1 < j} (region.2 + 1) ∨
        (∀ j, Entry stabs left right type j → j ≤ region.1) ∧ region.2 = right)
  unmatched : (¬ ∃ i, Entry stabs left right type i ∧ nValue stabs i ≤ addr.toNat) →
    region.2 < region.1

/-- The loop has ended with the last entry up to the address. -/
structure Closes (stabs : List Stab) (left right type : ℤ) (addr : UInt32) (s : Search) :
    Prop where
  anyMatches : s.anyMatches = true
  entry : Entry stabs left right type s.regionLeft
  le : nValue stabs s.regionLeft ≤ addr.toNat
  ordered : s.regionLeft ≤ s.regionRight
  inRange : s.regionRight ≤ right
  between : ∀ i, s.regionLeft < i → i ≤ s.regionRight → ¬ Entry stabs left right type i
  above : ∀ i, s.regionRight < i → Entry stabs left right type i → addr.toNat < nValue stabs i
  stop : s.regionRight = right ∨ Entry stabs left right type (s.regionRight + 1)

theorem Closes.brackets (h : Closes stabs left right type addr s) (hleft : 0 ≤ left)
    (hright : right < stabs.length) :
    ∃ region, s.finish stabs type = .ok region ∧ Brackets stabs left right type addr region := by
  have hl := h.entry.1
  have hr := h.inRange
  have hordered := h.ordered
  obtain ⟨k, hfinish, -, hk⟩ := finish_ok type h.anyMatches
    (by omega : 0 ≤ s.regionLeft + 1) (by omega : s.regionRight < stabs.length)
  have hnone : ∀ i, s.regionLeft < i → i ≤ s.regionRight → ∀ stab, stabAt stabs i = .ok stab →
      (stab.nType.toNat : ℤ) ≠ type := by
    intro i hli hir stab hstab htype
    exact h.between i hli hir ⟨by omega, by omega, stab, hstab, htype⟩
  have hk := hk hnone
  rw [min_eq_left h.ordered] at hk
  subst hk
  refine ⟨_, hfinish, fun _ => ⟨⟨⟨h.entry, h.le⟩, ?_⟩, ?_⟩, ?_⟩
  · rintro i ⟨hentry, hle⟩
    by_contra hlt
    by_cases hi : i ≤ s.regionRight
    · exact h.between i (not_le.1 hlt) hi hentry
    · exact absurd (h.above i (not_le.1 hi) hentry) (not_lt.2 hle)
  · have hbehind : ∀ j, Entry stabs left right type j → s.regionLeft < j →
        s.regionRight < j := by
      intro j hentry hlt
      by_contra hj
      exact h.between j hlt (not_lt.1 hj) hentry
    obtain hstop | hstop := h.stop
    · right
      refine ⟨fun j hentry => ?_, hstop⟩
      by_contra hj
      have hlt := hbehind j hentry (not_le.1 hj)
      have hjr := hentry.2.1
      omega
    · left
      refine ⟨⟨hstop, by show s.regionLeft < s.regionRight + 1; omega⟩, ?_⟩
      rintro j ⟨hentry, hlt⟩
      exact Int.add_one_le_iff.2 (hbehind j hentry hlt)
  · intro hnot
    exact absurd ⟨_, h.entry, h.le⟩ hnot

/-! ## The address behind -/

theorem toNat_addr_succ (h : addr.toNat + 1 < 2 ^ 32) : (addr + 1).toNat = addr.toNat + 1 := by
  rw [UInt32.toNat_add]
  exact Nat.mod_eq_of_lt h

theorem toNat_addr_wrap (h : addr.toNat + 1 = 2 ^ 32) : (addr + 1).toNat = 0 := by
  rw [UInt32.toNat_add]
  show (addr.toNat + 1) % 2 ^ 32 = 0
  rw [h, Nat.mod_self]

/-- What stays behind the result once an entry with a later address has been taken. -/
structure Beyond (stabs : List Stab) (right e : ℤ) (s : Search) : Prop where
  anyMatches : s.anyMatches = true
  regionLeft : e ≤ s.regionLeft
  l : e ≤ s.l
  r : e ≤ s.r
  regionRight : s.regionRight = s.r
  inRange : s.r ≤ right
  passed : nValue stabs e < s.addr.toNat ∨ e < s.l

theorem Beyond.moved (h : Beyond stabs right e s) (hle : s.l ≤ s.r)
    (hmoved : Moved stabs left right type s s') : Beyond stabs right e s' := by
  have hl := h.l
  have hr := h.r
  cases hmoved with
  | skip =>
    have hlt : e < (s.l + s.r) / 2 + 1 := by omega
    exact ⟨h.anyMatches, h.regionLeft, hlt.le, hr, h.regionRight, h.inRange, .inr hlt⟩
  | up hm =>
    have hlower := hm.lower
    have hlt : e < (s.l + s.r) / 2 + 1 := by omega
    exact ⟨rfl, hl.trans hlower, hlt.le, hr, h.regionRight, h.inRange, .inr hlt⟩
  | @down m hm hgreater =>
    have hlower := hm.lower
    have hupper := hm.upper
    have hrange := h.inRange
    have hlt : e < m := by
      obtain hless | hless := h.passed
      · by_contra hnot
        have heq : e = m := by omega
        rw [heq] at hless
        omega
      · omega
    exact ⟨rfl, h.regionLeft, hl, by show e ≤ m - 1; omega, rfl, by show m - 1 ≤ right; omega,
      h.passed⟩
  | @found m hm hvalue =>
    have hlower := hm.lower
    refine ⟨rfl, hl.trans hlower, hl.trans hlower, hr, h.regionRight, h.inRange, .inr ?_⟩
    show e < m
    obtain hless | hless := h.passed
    · by_contra hnot
      have heq : e = m := by omega
      rw [heq] at hless
      omega
    · omega

theorem Run.beyond (h : Run stabs left right type s s') (hbeyond : Beyond stabs right e s) :
    Beyond stabs right e s' := by
  induction h with
  | done => exact hbeyond
  | next hle hmoved _ ih => exact ih (hbeyond.moved hle hmoved)

theorem Beyond.finish (type : ℤ) (h : Beyond stabs right e s) (he : 0 ≤ e)
    (hright : right < stabs.length) :
    ∃ k, s.finish stabs type = .ok (k, s.regionRight) ∧ e ≤ k := by
  have hl := h.regionLeft
  have hr := h.regionRight
  have hrange := h.inRange
  have her := h.r
  obtain ⟨k, hfinish, hk, -⟩ := finish_ok type h.anyMatches
    (by omega : 0 ≤ s.regionLeft + 1) (by omega : s.regionRight < stabs.length)
  exact ⟨k, hfinish, by omega⟩

section Sorted

variable (hsorted : SortedEntries stabs left right type)

include hsorted

/-- An interval that has been bisected to nothing closes around the last entry before it. -/
theorem Tracks.closes (h : Tracks stabs left right type s s') (hend : s'.r < s'.l)
    (hle : s.l ≤ s.r + 1) (hregion : s.regionRight = s.r) (hrange : s.r ≤ right)
    (hlast : LastEntry (Entry stabs left right type) s.l (s'.l - 1) s'.regionLeft)
    (hge : addr.toNat ≤ s.addr.toNat) (hsucc : s.addr.toNat ≤ addr.toNat + 1)
    (habove : ∀ i, s.r < i → Entry stabs left right type i → addr.toNat < nValue stabs i)
    (hstop : s.r = right ∨ Entry stabs left right type (s.r + 1)) :
    Closes stabs left right type addr s' := by
  have hnarrowed := narrowed hsorted h.bisected
  have hupper : s'.r ≤ s.r := hnarrowed.upper
  have hempty : s'.l = s'.r + 1 := by
    have hnearly : s'.l ≤ s'.r + 1 := hnarrowed.nearly hle
    omega
  have hright' := h.regionRight hregion
  have hlow := hlast.lower
  have hlastle := hlast.upper
  constructor
  · have hentry := hlast.entry
    exact h.anyMatches.2 (.inr (.inl ⟨s'.regionLeft, hlow, by omega, hentry⟩))
  · exact hlast.entry
  · have hless := hnarrowed.below s'.regionLeft hlow (by show s'.regionLeft < s'.l; omega)
      hlast.entry
    omega
  · omega
  · omega
  · intro i hli hir
    exact hlast.noneAfter i hli (by omega)
  · intro i hlt hentry
    by_cases hi : i ≤ s.r
    · have hgreater := hnarrowed.above i (by show s'.r < i; omega) hi hentry
      omega
    · exact habove i (not_le.1 hi) hentry
  · rw [hright']
    obtain hsame | ⟨-, hentry⟩ := hnarrowed.stop
    · have hsame : s'.r = s.r := hsame
      rw [hsame]
      exact hstop
    · exact .inr hentry

/-- Behind the greatest address comes address 0, so that the stab that was found is given up. -/
theorem Run.wrapped (hrun : Run stabs left right type (s₁.matched m) s')
    (hmax : s₁.addr.toNat + 1 = 2 ^ 32) (hentry : Entry stabs left right type m)
    (hvalue : nValue stabs m = s₁.addr.toNat) (hle : m ≤ s₁.r)
    (hregion : s₁.regionRight = s₁.r) (hleft : 0 ≤ left) (hright : right < stabs.length) :
    s'.finish stabs type = .ok (m - 1, m - 1) := by
  have hzero : (s₁.matched m).addr.toNat = 0 := toNat_addr_wrap hmax
  have hlm := hentry.1
  have hmr := hentry.2.1
  obtain ⟨htracks, hend⟩ | ⟨s₂, m', htracks, hle', hm', hvalue', -⟩ := hrun.tracks hsorted
  · have hnarrowed := narrowed hsorted htracks.bisected
    rw [hzero] at hnarrowed
    have hlower : m ≤ s'.l := hnarrowed.lower
    have hl : s'.l = m := by
      by_contra hne
      have hless := hnarrowed.below m le_rfl (by show m < s'.l; omega) hentry
      omega
    have hr : s'.r = m - 1 := by
      have hnearly : s'.l ≤ s'.r + 1 := hnarrowed.nearly (by show m ≤ s₁.r + 1; omega)
      omega
    have hrl : s'.regionLeft = m := by
      obtain ⟨hsame, -⟩ | hlast := htracks.regionLeft
      · exact hsame
      · have hlow : m ≤ s'.regionLeft := hlast.lower
        have hupper := hlast.upper
        omega
    have hrr : s'.regionRight = m - 1 := by
      rw [htracks.regionRight hregion, hr]
    obtain ⟨k, hfinish, -, hk⟩ := finish_ok type
      (htracks.anyMatches.2 (.inl rfl)) (by omega : 0 ≤ s'.regionLeft + 1)
      (by omega : s'.regionRight < stabs.length)
    have hk := hk fun i hli hir => absurd hli (by omega)
    rw [hfinish, hk, hrl, hrr, min_eq_right (by omega)]
  · have hnarrowed := narrowed hsorted htracks.bisected
    have hlower : m ≤ s₂.l := hnarrowed.lower
    have hlower' := hm'.lower
    have hge := hsorted m m' hentry hm'.entry (by omega)
    rw [hvalue', hzero, hvalue] at hge
    omega

/-! ## When the region is the right one -/

/-- The region is found, and it brackets the address. -/
def Succeeds (stabs : List Stab) (left right type : ℤ) (addr : UInt32)
    (result : Except Fault (ℤ × ℤ)) : Prop :=
  ∃ region, result = .ok region ∧ Brackets stabs left right type addr region

theorem succeeds_iff_of_exhausted
    (h : Tracks stabs left right type ⟨left, right, left, right, false, addr⟩ s')
    (hend : s'.r < s'.l) (hleft : 0 ≤ left) (hright : right < stabs.length) :
    Succeeds stabs left right type addr (s'.finish stabs type) ↔
      (∀ i, ¬ Entry stabs left right type i) ∨
        ∃ i, Entry stabs left right type i ∧ nValue stabs i ≤ addr.toNat := by
  have hnarrowed := narrowed hsorted h.bisected
  obtain ⟨hsame, hnone⟩ | hlast := h.regionLeft
  · have hupper : s'.r ≤ right := hnarrowed.upper
    have hgreater : ∀ i, Entry stabs left right type i → addr.toNat < nValue stabs i := by
      intro i hentry
      have hi : s'.r < i := by
        by_contra hi
        exact hnone i hentry.1 (by omega) hentry
      exact hnarrowed.above i hi hentry.2.1 hentry
    have hnot : ¬ ∃ i, Entry stabs left right type i ∧ nValue stabs i ≤ addr.toNat := by
      rintro ⟨i, hentry, hle⟩
      exact absurd (hgreater i hentry) (not_lt.2 hle)
    rw [or_iff_left hnot]
    by_cases hr : s'.r < right
    · obtain hstop | ⟨-, hentry⟩ := hnarrowed.stop
      · exact absurd hstop hr.ne
      · refine iff_of_false ?_ fun hall => hall _ hentry
        rintro ⟨region, hfinish, hbrackets⟩
        have hlt := hbrackets.unmatched hnot
        have hany := h.anyMatches.2 (.inr (.inr hr))
        have hrr := h.regionRight rfl
        have hleft' : left ≤ s'.r + 1 := hentry.1
        have hrl : s'.regionLeft = left := hsame
        obtain ⟨k, hfinish', -, hk⟩ := finish_ok type hany
          (by omega : 0 ≤ s'.regionLeft + 1) (by omega : s'.regionRight < stabs.length)
        rw [hfinish] at hfinish'
        cases hfinish'
        have hk := hk fun i hli hir stab hstab htype =>
          hnone i (by show left ≤ i; omega) (by omega)
            ⟨by omega, by omega, stab, hstab, htype⟩
        have hkr : s'.regionRight < k := hlt
        omega
    · have hany : s'.anyMatches = false := by
        rw [← Bool.not_eq_true, h.anyMatches]
        rintro (hany | ⟨i, hli, hil, hentry⟩ | hlt)
        · exact Bool.false_ne_true hany
        · exact hnone i hli hil hentry
        · exact hr hlt
      have hall : ∀ i, ¬ Entry stabs left right type i := by
        intro i hentry
        have hi := hentry.2.1
        exact hnone i hentry.1 (by omega) hentry
      refine iff_of_true ⟨_, by simp [Search.finish, hany, pure, Except.pure]; rfl, ?_, ?_⟩ hall
      · exact fun hex => absurd hex hnot
      · intro _
        exact sub_one_lt _
  · have hentry := hlast.entry
    have hcloses : Closes stabs left right type addr s' := by
      apply h.closes hsorted hend _ rfl le_rfl hlast le_rfl (Nat.le_succ _)
      · intro i hlt hentry
        exact absurd hentry.2.1 (not_le.2 hlt)
      · exact .inl rfl
      · show left ≤ right + 1
        have hl := hentry.1
        have hr := hentry.2.1
        omega
    exact iff_of_true (hcloses.brackets hleft hright) (.inr ⟨_, hentry, hcloses.le⟩)

omit hsorted in
/-- After an exact match at the greatest address the region is wrong. -/
theorem not_succeeds_of_wrapped (hentry : Entry stabs left right type m)
    (hle : nValue stabs m ≤ addr.toNat) :
    ¬ Succeeds stabs left right type addr (.ok (m - 1, m - 1)) := by
  rintro ⟨region, hregion, hbrackets⟩
  cases hregion
  have hgreatest := (hbrackets.matched ⟨m, hentry, hle⟩).1
  have hm : m ≤ m - 1 := hgreatest.2 ⟨hentry, hle⟩
  omega

/-- A stab with the address behind it that is left in the interval is taken for the one searched,
unless the wrap-around gives it up again. -/
theorem succeeds_iff_of_found_twice {m' : ℤ}
    (hrun : Run stabs left right type (s₁.matched m') s')
    (hm' : Entry stabs left right type m') (hvalue' : nValue stabs m' = s₁.addr.toNat)
    (haddr : s₁.addr.toNat = addr.toNat + 1) (hle : m' ≤ s₁.r) (hr : s₁.r ≤ right)
    (hregion : s₁.regionRight = s₁.r) (hm : Entry stabs left right type m)
    (hvalue : nValue stabs m = addr.toNat) (hleft : 0 ≤ left) (hright : right < stabs.length) :
    Succeeds stabs left right type addr (s'.finish stabs type) ↔
      addr.toNat + 2 = 2 ^ 32 ∧ Entry stabs left right type (m' - 1) ∧
        nValue stabs (m' - 1) = addr.toNat := by
  by_cases hmax : s₁.addr.toNat + 1 = 2 ^ 32
  · rw [hrun.wrapped hsorted hmax hm' hvalue' hle hregion hleft hright]
    constructor
    · rintro ⟨region, hregion, hbrackets⟩
      cases hregion
      obtain ⟨hgreatest, -⟩ := hbrackets.matched ⟨m, hm, hvalue.le⟩
      obtain ⟨hentry, hless⟩ := hgreatest.1
      have hmm : m ≤ m' - 1 := hgreatest.2 ⟨hm, hvalue.le⟩
      have hge := hsorted m (m' - 1) hm hentry hmm
      have hless : nValue stabs (m' - 1) ≤ addr.toNat := hless
      exact ⟨by omega, hentry, by omega⟩
    · rintro ⟨-, hentry, hsame⟩
      refine ⟨_, rfl, fun _ => ⟨⟨⟨hentry, hsame.le⟩, ?_⟩, .inl ⟨⟨?_, ?_⟩, ?_⟩⟩, ?_⟩
      · rintro i ⟨hi, hless⟩
        by_contra hlt
        have hge := hsorted m' i hm' hi (by omega)
        omega
      · show Entry stabs left right type (m' - 1 + 1)
        rwa [sub_add_cancel]
      · show m' - 1 < m' - 1 + 1
        omega
      · rintro j ⟨-, hlt⟩
        exact Int.add_one_le_iff.2 hlt
      · intro hnot
        exact absurd ⟨_, hm, hvalue.le⟩ hnot
  · have hlt := s₁.addr.toNat_lt
    have hsucc : (s₁.matched m').addr.toNat = s₁.addr.toNat + 1 :=
      toNat_addr_succ (by omega)
    have hbeyond : Beyond stabs right m' (s₁.matched m') :=
      ⟨rfl, le_rfl, le_rfl, hle, hregion, hr, .inl (by omega)⟩
    have hl := hm'.1
    obtain ⟨k, hfinish, hk⟩ := (hrun.beyond hbeyond).finish type (by omega) hright
    refine iff_of_false ?_ (by omega)
    rintro ⟨region, hregion, hbrackets⟩
    rw [hfinish] at hregion
    cases hregion
    obtain ⟨hgreatest, -⟩ := hbrackets.matched ⟨m, hm, hvalue.le⟩
    obtain ⟨hentry, hless⟩ := hgreatest.1
    have hge := hsorted m' k hm' hentry hk
    have hless : nValue stabs k ≤ addr.toNat := hless
    omega

end Sorted

/-- After an exact match no stab with the address behind it is left to be taken. At the last but
one address the wrap-around gives it up again, which does if it is next to one of the address. -/
def GoesOnRight (stabs : List Stab) (left right type : ℤ) (addr : UInt32) : Prop :=
  ∀ m r, Finds (Entry stabs left right type) (nValue stabs) addr.toNat left right m r →
    addr.toNat + 1 < 2 ^ 32 ∧
      ((∀ i, Entry stabs left right type i → i ≤ r → nValue stabs i ≠ addr.toNat + 1) ∨
        ∃ m' r', Finds (Entry stabs left right type) (nValue stabs) (addr.toNat + 1) m r m' r' ∧
          addr.toNat + 2 = 2 ^ 32 ∧ Entry stabs left right type (m' - 1) ∧
            nValue stabs (m' - 1) = addr.toNat)

section Sorted

variable (hsorted : SortedEntries stabs left right type)

include hsorted

theorem succeeds_iff_of_found
    (h : Tracks stabs left right type ⟨left, right, left, right, false, addr⟩ s₁)
    (hm : LastEntry (Entry stabs left right type) s₁.l ((s₁.l + s₁.r) / 2) m)
    (hle : s₁.l ≤ s₁.r) (hvalue : nValue stabs m = addr.toNat)
    (hrun : Run stabs left right type (s₁.matched m) s') (hleft : 0 ≤ left)
    (hright : right < stabs.length) :
    Succeeds stabs left right type addr (s'.finish stabs type) ↔
      GoesOnRight stabs left right type addr := by
  have hfinds : Finds (Entry stabs left right type) (nValue stabs) addr.toNat left right m s₁.r :=
    ⟨s₁.l, h.bisected, hle, hm, hvalue⟩
  have hnarrowed := narrowed hsorted h.bisected
  have hr : s₁.r ≤ right := hnarrowed.upper
  have hregion : s₁.regionRight = s₁.r := h.regionRight rfl
  have haddr : s₁.addr = addr := h.addr
  have hmr : m ≤ s₁.r := by
    have hupper := hm.upper
    omega
  have habove : ∀ i, s₁.r < i → Entry stabs left right type i → addr.toNat < nValue stabs i :=
    fun i hlt hentry => hnarrowed.above i hlt hentry.2.1 hentry
  by_cases hmax : addr.toNat + 1 = 2 ^ 32
  · rw [hrun.wrapped hsorted (haddr ▸ hmax) hm.entry (haddr ▸ hvalue) hmr hregion hleft hright]
    refine iff_of_false (not_succeeds_of_wrapped hm.entry hvalue.le) fun hgoes => ?_
    have hlt := (hgoes m s₁.r hfinds).1
    omega
  have hlt := addr.toNat_lt
  have hsucc : (s₁.matched m).addr.toNat = addr.toNat + 1 := by
    show (s₁.addr + 1).toNat = addr.toNat + 1
    rw [haddr]
    exact toNat_addr_succ (by omega)
  obtain ⟨htracks, hend⟩ | ⟨s₂, m', htracks, hle', hm', hvalue', hrun'⟩ := hrun.tracks hsorted
  · have hnone : ∀ i, Entry stabs left right type i → i ≤ s₁.r →
        nValue stabs i ≠ addr.toNat + 1 := by
      intro i hentry hi
      by_cases hmi : m ≤ i
      · have hbisected := htracks.bisected
        rw [hsucc] at hbisected
        exact ne_of_exhausted hsorted hbisected hend hmi hi hentry
      · have hless := hsorted i m hentry hm.entry (by omega)
        omega
    have hlast : LastEntry (Entry stabs left right type) m (s'.l - 1) s'.regionLeft := by
      obtain ⟨-, hnone'⟩ | hlast := htracks.regionLeft
      · have hlater := narrowed hsorted htracks.bisected
        rw [hsucc] at hlater
        have hml : s'.l ≤ m := not_lt.1 fun hlt => hnone' m le_rfl hlt hm.entry
        have hgreater := hlater.above m (by show s'.r < m; omega) hmr hm.entry
        omega
      · exact hlast
    have hcloses : Closes stabs left right type addr s' := by
      apply htracks.closes hsorted hend _ hregion hr hlast _ hsucc.le habove
      · obtain hstop | ⟨-, hentry⟩ := hnarrowed.stop
        · exact .inl hstop
        · exact .inr hentry
      · show m ≤ s₁.r + 1
        omega
      · omega
    refine iff_of_true (hcloses.brackets hleft hright) fun m₁ r₁ hfinds₁ => ?_
    obtain ⟨rfl, rfl⟩ := hfinds.unique hfinds₁
    exact ⟨by omega, .inl hnone⟩
  · have hlater := narrowed hsorted htracks.bisected
    have hr₂ : s₂.r ≤ s₁.r := hlater.upper
    have hl₂ : m ≤ s₂.l := hlater.lower
    have hm'r : m' ≤ s₂.r := by
      have hupper := hm'.upper
      omega
    have hfinds' : Finds (Entry stabs left right type) (nValue stabs) (addr.toNat + 1) m s₁.r m'
        s₂.r := by
      have hbisected := htracks.bisected
      rw [hsucc] at hbisected
      exact ⟨s₂.l, hbisected, hle', hm', hvalue'.trans hsucc⟩
    have haddr₂ : s₂.addr.toNat = addr.toNat + 1 := by
      rw [htracks.addr, hsucc]
    rw [succeeds_iff_of_found_twice hsorted hrun' hm'.entry
      (hvalue'.trans (hsucc.trans haddr₂.symm)) haddr₂ hm'r (hr₂.trans hr)
      (htracks.regionRight hregion) hm.entry hvalue hleft hright]
    constructor
    · intro hwrap m₁ r₁ hfinds₁
      obtain ⟨rfl, rfl⟩ := hfinds.unique hfinds₁
      exact ⟨by omega, .inr ⟨m', s₂.r, hfinds', hwrap⟩⟩
    · intro hgoes
      obtain ⟨-, hnone | ⟨m₁, r₁, hfinds₁, hwrap⟩⟩ := hgoes m s₁.r hfinds
      · exact absurd (hvalue'.trans hsucc) (hnone m' hm'.entry (hm'r.trans hr₂))
      · obtain ⟨rfl, -⟩ := hfinds'.unique hfinds₁
        exact hwrap

end Sorted

theorem stabBinsearch_succeeds_iff (stabs : List Stab) (left right type : ℤ) (addr : UInt32)
    (hleft : 0 ≤ left) (hright : right < stabs.length)
    (hsorted : SortedEntries stabs left right type) :
    Succeeds stabs left right type addr (stabBinsearch stabs left right type addr) ↔
      (∀ i, ¬ Entry stabs left right type i) ∨
        (∃ i, Entry stabs left right type i ∧ nValue stabs i ≤ addr.toNat) ∧
          GoesOnRight stabs left right type addr := by
  have hmeasure : Search.measure stabs ⟨left, right, left, right, false, addr⟩ <
      2 * stabs.length + 2 := by
    simp only [Search.measure]
    split_ifs <;> omega
  obtain ⟨s', hloop, hrun⟩ := loop_run type hleft hright (le_refl left) (le_refl right)
    hmeasure
  have hsearch : stabBinsearch stabs left right type addr = s'.finish stabs type := by
    simp [stabBinsearch, hloop, bind, Except.bind]
  rw [hsearch]
  obtain ⟨htracks, hend⟩ | ⟨s₁, m, htracks, hle, hm, hvalue, hrun'⟩ := hrun.tracks hsorted
  · have hgoes : GoesOnRight stabs left right type addr := fun m r hfinds =>
      absurd hfinds (not_finds_of_lt htracks.bisected hend)
    rw [succeeds_iff_of_exhausted hsorted htracks hend hleft hright, and_iff_left hgoes]
  · rw [succeeds_iff_of_found hsorted htracks hm hle hvalue hrun' hleft hright, and_iff_right]
    · rw [or_iff_right]
      intro hall
      exact hall m hm.entry
    · exact ⟨m, hm.entry, hvalue.le⟩

/-! ## Two stabs -/

theorem entry_pair {a b : Stab} {i : ℤ} (h : Entry [a, b] 0 1 type i) : i = 0 ∨ i = 1 := by
  have hl := h.1
  have hr := h.2.1
  omega

theorem sortedEntries_pair {a b : Stab} (h : a.nValue.toNat ≤ b.nValue.toNat) :
    SortedEntries [a, b] 0 1 type := by
  intro i j hi hj hij
  obtain rfl | rfl := entry_pair hi
  · obtain rfl | rfl := entry_pair hj
    · exact le_rfl
    · exact h
  · obtain rfl | rfl := entry_pair hj
    · omega
    · exact le_rfl

theorem stabBinsearch_succeeds_iff_between :
    Succeeds [⟨36, 16⟩, ⟨36, 32⟩] 0 1 36 20
      (stabBinsearch [⟨36, 16⟩, ⟨36, 32⟩] 0 1 36 20) := by
  apply (stabBinsearch_succeeds_iff [⟨36, 16⟩, ⟨36, 32⟩] 0 1 36 20 (by decide) (by decide)
    (sortedEntries_pair (by decide))).2
  right
  constructor
  · exact ⟨0, ⟨by decide, by decide, ⟨36, 16⟩, rfl, rfl⟩, by decide⟩
  · intro m r hfinds
    obtain ⟨l, -, -, hm, hvalue⟩ := hfinds
    obtain rfl | rfl := entry_pair hm.entry
    · exact absurd hvalue (by decide)
    · exact absurd hvalue (by decide)

/-- The stab that follows an exact match by one is the one that is reported. -/
theorem stabBinsearch_takes_next :
    ¬ ∀ (stabs : List Stab) (left right type : ℤ) (addr : UInt32), 0 ≤ left →
      right < stabs.length → SortedEntries stabs left right type →
        Succeeds stabs left right type addr (stabBinsearch stabs left right type addr) := by
  intro h
  obtain ⟨region, hregion, hbrackets⟩ := h [⟨36, 16⟩, ⟨36, 17⟩] 0 1 36 16 le_rfl (by decide)
    (sortedEntries_pair (by decide))
  have heq : stabBinsearch [⟨36, 16⟩, ⟨36, 17⟩] 0 1 36 16 = .ok (1, 1) := by decide
  rw [heq] at hregion
  cases hregion
  have hfirst : Entry [⟨36, 16⟩, ⟨36, 17⟩] 0 1 36 0 := ⟨le_rfl, by decide, ⟨36, 16⟩, rfl, rfl⟩
  have hgreatest := (hbrackets.matched ⟨0, hfirst, by decide⟩).1
  exact absurd hgreatest.1.2 (by decide)

end Courses.Jos
