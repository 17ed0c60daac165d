import Courses.MallocLab.Calls

/-!
# Changing the size of a block

`mm_realloc`: the block stays and is cut, takes in the free block after it, or moves.
In each case the block at the pointer it returns starts with the bytes the old one
started with.
-/
namespace Courses.MallocLab

open Courses.Lib

variable {c : Config} {s t : Heap} {pre post : List Block} {fl : List ℕ} {p z reqSize size : ℕ}
  {U : ℕ → ℕ → Prop}

/-! ## Growing in place -/

/-- The memory once the block of `z` bytes at `a` has taken in the `w` bytes after it,
with `v` in the word after both. -/
def markGrown (m : Mem) (a z w v : ℕ) (preceding : Bool) : Mem :=
  setWord (setWord (setWord m a (tagged (z + w) preceding true)) (a + z) 0) (a + (z + w)) v

/-- A used block and the free block after it, which is off the list, become one. -/
theorem HeapRep.grow {w n : ℕ} {used : Bool}
    (h : HeapRep c s (pre ++ [⟨z, true⟩, ⟨w, false⟩] ++ post) fl)
    (hl : ListsOutside c pre [⟨z, true⟩, ⟨w, false⟩] post fl)
    (hword : word s.bytes (groupStart c pre + (z + w)) = tagged n false used)
    (hn : n < 2 ^ 64 - 8) :
    HeapRep c ⟨markGrown s.bytes (groupStart c pre) z w (tagged n true used) (lastUsed true pre),
      s.brk⟩ (pre ++ [⟨z + w, true⟩] ++ post) fl := by
  have h' : HeapRep c s (pre ++ ⟨z, true⟩ :: ⟨w, false⟩ :: post) fl := by simpa using h
  have h'' : HeapRep c s ((pre ++ [⟨z, true⟩]) ++ ⟨w, false⟩ :: post) fl := by simpa using h
  obtain ⟨-, hzdvd, hzmin, hzend, -⟩ := h'.middle
  obtain ⟨-, hwdvd, hwmin, hwend, -⟩ := h''.middle
  have hlt := h.brk_lt
  have hspan : span [(⟨z, true⟩ : Block), ⟨w, false⟩] = z + w := by simp
  have hspan' : span [(⟨z + w, true⟩ : Block)] = span [(⟨z, true⟩ : Block), ⟨w, false⟩] := by simp
  have hstart : groupStart c (pre ++ [⟨z, true⟩]) = groupStart c pre + z := by
    rw [groupStart_append, span_cons, span_nil, Nat.add_zero]
  rw [hstart] at hwend
  dsimp only at hzdvd hzmin hzend hwdvd hwmin hwend
  have htag : tagged (z + w) (lastUsed true pre) true < 2 ^ 64 := by
    have := tagged_bits_lt (lastUsed true pre) true
    rw [tagged]
    omega
  have htag' : tagged n true used < 2 ^ 64 := by
    have := tagged_bits_lt true used
    rw [tagged]
    omega
  have hhead : word (markGrown s.bytes (groupStart c pre) z w (tagged n true used)
      (lastUsed true pre)) (groupStart c pre) = tagged (z + w) (lastUsed true pre) true := by
    rw [markGrown, word_setWord_of_disjoint (by omega), word_setWord_of_disjoint (by omega),
      word_setWord_self htag]
  have hnext : word (markGrown s.bytes (groupStart c pre) z w (tagged n true used)
      (lastUsed true pre)) (groupStart c pre + (z + w)) = tagged n true used := by
    rw [markGrown, word_setWord_self htag']
  apply h.retile hspan'
  · intro x hx
    rw [hspan] at hx
    rw [markGrown, setWord_outside (by omega), setWord_outside (by omega),
      setWord_outside (by omega)]
  · refine ⟨dvd_add hzdvd hwdvd, ?_, hhead, fun hu => Bool.noConfusion hu, trivial⟩
    exact hzmin.trans (Nat.le_add_right z w)
  · rw [hspan, hnext, hword]
    simp only [lastUsed, tagged, Bool.toNat_true, Bool.toNat_false]
    omega
  · exact fun p hp => ((hl p).mp hp).2

/-- The stores of `growInPlace`. -/
theorem runs_absorb {w : ℕ} (h : HeapRep c s (pre ++ [⟨z, true⟩, ⟨w, false⟩] ++ post) fl)
    (hl : ListsOutside c pre [⟨z, true⟩, ⟨w, false⟩] post fl) :
    Runs (do
        store c (groupStart c pre) ((z + w) ||| 2 * (lastUsed true pre).toNat)
        store c (groupStart c pre) ((← load c (groupStart c pre)) ||| TAG_USED)
        store c (groupStart c pre + z) 0
        store c (groupStart c pre + (z + w))
          ((← load c (groupStart c pre + (z + w))) ||| TAG_PRECEDING_USED)) s (fun _ t =>
      t.brk = s.brk ∧ HeapRep c t (pre ++ [⟨z + w, true⟩] ++ post) fl ∧
        ∃ v, t.bytes = markGrown s.bytes (groupStart c pre) z w v (lastUsed true pre)) := by
  have h' : HeapRep c s (pre ++ ⟨z, true⟩ :: ⟨w, false⟩ :: post) fl := by simpa using h
  have h'' : HeapRep c s ((pre ++ [⟨z, true⟩]) ++ [⟨w, false⟩] ++ post) fl := by simpa using h
  obtain ⟨-, hzdvd, hzmin, hzend, -⟩ := h'.middle
  have hstart : groupStart c (pre ++ [⟨z, true⟩]) = groupStart c pre + z := by
    rw [groupStart_append, span_cons, span_nil, Nat.add_zero]
  obtain ⟨n, used, hword, hdvd, hn, hrange, -⟩ := h''.after
  have hw : 8 ∣ w ∧ 32 ≤ w := by
    rw [List.append_assoc _ [_]] at h''
    exact ⟨h''.middle.2.1, h''.middle.2.2.1⟩
  have hlo := (groupStart_range h').1
  have hlt := h.brk_lt
  rw [hstart, Nat.add_assoc] at hword hrange
  dsimp only at hzdvd hzmin hzend
  have htag : tagged (z + w) (lastUsed true pre) false < 2 ^ 64 := by
    have := tagged_bits_lt (lastUsed true pre) false
    rw [tagged]
    omega
  rw [lor_preceding (dvd_add hzdvd hw.1)]
  apply runs_store (by omega)
  apply runs_load (by dsimp only; omega)
  dsimp only
  rw [word_setWord_self htag, tagged_lor_used (dvd_add hzdvd hw.1)]
  apply runs_store (by dsimp only; omega)
  dsimp only
  rw [setWord_setWord_same]
  apply runs_store (by dsimp only; omega)
  apply runs_load (by dsimp only; omega)
  apply runs_store_last (by dsimp only; omega)
  dsimp only
  rw [word_setWord_of_disjoint (by omega), word_setWord_of_disjoint (by omega), hword,
    tagged_lor_preceding hdvd]
  exact ⟨rfl, h.grow hl hword hn, _, rfl⟩

/-- What in-place growth leaves: the block has `r` bytes, and the other used blocks are
where they were. -/
structure Grown (c : Config) (s : Heap) (pre post : List Block) (z r : ℕ) (t : Heap)
    (post' : List Block) (fl' : List ℕ) : Prop where
  rep : HeapRep c t (pre ++ [⟨r, true⟩] ++ post') fl'
  complete : Complete c (pre ++ [⟨r, true⟩] ++ post') fl'
  le : z ≤ r
  used : ∀ p w, p ≠ groupStart c pre → (UsedAt c (pre ++ [⟨r, true⟩] ++ post') p w ↔
    UsedAt c (pre ++ [⟨z, true⟩] ++ post) p w)
  brk : t.brk = s.brk
  keeps : Keeps (UsedAt c (pre ++ [⟨z, true⟩] ++ post)) s.bytes t.bytes

theorem Grown.refl (h : HeapRep c s (pre ++ [⟨z, true⟩] ++ post) fl)
    (hc : Complete c (pre ++ [⟨z, true⟩] ++ post) fl) : Grown c s pre post z z s post fl :=
  ⟨h, hc, le_rfl, fun _ _ _ => Iff.rfl, rfl, Keeps.refl _ _⟩

theorem runs_growInPlace (h : HeapRep c s (pre ++ [⟨z, true⟩] ++ post) fl)
    (hc : Complete c (pre ++ [⟨z, true⟩] ++ post) fl) (reqSize : ℕ) :
    Runs (growInPlace c (groupStart c pre) z reqSize (2 * (lastUsed true pre).toNat)) s
      (fun r t => ∃ post' fl', Grown c s pre post z r t post' fl' ∧
        (NoAdjacentFree (pre ++ [⟨z, true⟩] ++ post) →
          NoAdjacentFree (pre ++ [⟨r, true⟩] ++ post') ∧ (z < r → headUsed post' = true))) := by
  have h' : HeapRep c s (pre ++ ⟨z, true⟩ :: post) fl := by simpa using h
  obtain ⟨-, hzdvd, hzmin, hzend, -⟩ := h'.middle
  obtain ⟨w, used, hword, hwdvd, hwlt, hrange, hpost, -⟩ := h.after
  have hlo := (groupStart_range h').1
  have hlt := h.brk_lt
  dsimp only at hzdvd hzmin hzend
  rw [growInPlace, wadd_eq (by omega)]
  apply runs_load (by omega)
  rw [hword, tagged_land_used hwdvd]
  cases used with
  | true =>
    rw [if_neg (by decide)]
    exact runs_pure ⟨post, fl, Grown.refl h hc, fun hbs => ⟨hbs, fun hlt => absurd hlt (by omega)⟩⟩
  | false =>
    obtain ⟨ds, rfl⟩ := hpost rfl
    rw [if_pos (by decide)]
    apply runs_load (by omega)
    rw [hword, SIZE_tagged hwdvd hwlt]
    have hassoc : pre ++ [⟨z, true⟩] ++ ⟨w, false⟩ :: ds = pre ++ [⟨z, true⟩, ⟨w, false⟩] ++ ds := by
      simp
    have hassoc' : pre ++ [⟨z, true⟩] ++ ⟨w, false⟩ :: ds =
        (pre ++ [⟨z, true⟩]) ++ [⟨w, false⟩] ++ ds := by simp
    have hstart : groupStart c (pre ++ [⟨z, true⟩]) = groupStart c pre + z := by
      rw [groupStart_append, span_cons, span_nil, Nat.add_zero]
    obtain ⟨-, -, -, hwend, -⟩ := h.middle
    rw [hstart] at hwend
    dsimp only at hwend
    dsimp only
    rw [wadd_eq (by omega), wadd_eq (by omega)]
    split_ifs with hfits
    · have hfree : FreeAt c (pre ++ [⟨z, true⟩] ++ ⟨w, false⟩ :: ds) (groupStart c pre + z) w := by
        rw [← hstart]
        exact freeAt_middle
      have hself : UsedAt c (pre ++ [⟨z, true⟩] ++ ⟨w, false⟩ :: ds) (groupStart c pre) z := by
        rw [List.append_assoc]
        exact mem_placed_middle _ _ _ _
      refine (runs_drop h hfree (hc _ _ hfree)).bind ?_
      rintro _ t₁ ⟨fl₁, hdrop⟩
      have hspan : span [(⟨z, true⟩ : Block), ⟨w, false⟩] = z + w := by simp
      have hspan' : span [(⟨z + w, true⟩ : Block)] = span [(⟨z, true⟩ : Block), ⟨w, false⟩] := by
        simp
      have hl : ListsOutside c pre [⟨z, true⟩, ⟨w, false⟩] ds fl₁ := by
        intro q
        rw [hdrop.mem, hspan, ← hassoc]
        constructor
        · rintro ⟨hq, hout⟩
          obtain ⟨v, hv⟩ := h.free q hq
          have hpos := h.placed_pos hv
          have := FreeAt.apart_usedAt hv hself
          dsimp only at hpos
          exact ⟨⟨v, hv⟩, by omega⟩
        · rintro ⟨⟨v, hv⟩, hout⟩
          exact ⟨hc q v hv, by omega⟩
      have hrep₁ := hdrop.rep
      rw [hassoc] at hrep₁
      have hrun := (runs_absorb hrep₁ hl).bind (f := fun _ => pure (z + w))
        (R := fun r t => ∃ post' fl', Grown c s pre (⟨w, false⟩ :: ds) z r t post' fl' ∧
          (NoAdjacentFree (pre ++ [⟨z, true⟩] ++ ⟨w, false⟩ :: ds) →
            NoAdjacentFree (pre ++ [⟨r, true⟩] ++ post') ∧ (z < r → headUsed post' = true))) ?_
      · simpa only [bind_assoc] using hrun
      · rintro _ t ⟨hbrk, hrep, v, hbytes⟩
        refine runs_pure ⟨ds, fl₁,
          ⟨hrep, ?_, Nat.le_add_right z w, ?_, hbrk.trans hdrop.brk, ?_⟩,
          fun hbs => ⟨hbs.absorb, fun _ => hbs.headUsed_after⟩⟩
        · apply HeapRep.complete_retile hl hrep hspan' (List.Subset.refl _)
          intro p n hp
          simp [placed] at hp
        · intro p n hne
          rw [hrep₁.usedAt_retile hrep hspan', hassoc, hspan]
          constructor
          · rintro (hp | hp)
            · exact hp.1
            · simp only [placed, List.mem_singleton, Prod.mk.injEq] at hp
              exact absurd hp.1 hne
          · intro hp
            refine Or.inl ⟨hp, ?_⟩
            rw [← hassoc] at hp
            have hpos := h.placed_pos hp
            have hleft := placed_apart hp hself
            have hright := hfree.apart_usedAt hp
            dsimp only at hpos hleft
            omega
        · refine hdrop.keeps.trans fun p n hp x hx hx' => ?_
          have hpos := h.placed_pos hp
          have hleft := placed_apart hp hself
          have hright := hfree.apart_usedAt hp
          rw [Block.mk.injEq] at hleft
          dsimp only at hpos hleft
          rw [hbytes, markGrown, setWord_outside (by omega), setWord_outside (by omega),
            setWord_outside (by omega)]
    · exact runs_pure ⟨_, fl, Grown.refl h hc, fun hbs => ⟨hbs, fun hlt => absurd hlt (by omega)⟩⟩

/-! ## The whole call -/

/-- What `mm_realloc` does to the block of `z` bytes at `b`: there is a block of at least
`size` usable bytes in its place, with the same first bytes, and the payloads of the
others are as they were. -/
def Reallocated (c : Config) (s : Heap) (U : ℕ → ℕ → Prop) (b z size r : ℕ) (t : Heap) : Prop :=
  ∃ b' z', r = b' + 8 ∧ size + 8 ≤ z' ∧ (∀ w, U b' w → b' = b) ∧
    Resting c t (fun p w => (U p w ∧ p ≠ b) ∨ (p = b' ∧ w = z')) ∧
      Keeps (fun p w => U p w ∧ p ≠ b) s.bytes t.bytes ∧
        ∀ i, i < size → i + 8 < z → t.bytes (b' + 8 + i) = s.bytes (b + 8 + i)

/-- A block that has grown, or not, and then been cut, or not. -/
theorem Grown.reallocated {r n : ℕ} {u : Heap} {post' : List Block} {fl' : List ℕ}
    (hg : Grown c s pre post z r t post' fl')
    (hU : ∀ p w, UsedAt c (pre ++ [⟨z, true⟩] ++ post) p w ↔ U p w) (hn : size + 8 ≤ n)
    (hrest : Resting c u (SplitKeeps c pre post' r n true))
    (hkeep : Keeps (SplitKeeps c pre post' r n true) t.bytes u.bytes) :
    Reallocated c s U (groupStart c pre) z size (groupStart c pre + 8) u := by
  have hused : ∀ p w, SplitKeeps c pre post' r n true p w ↔
      (U p w ∧ p ≠ groupStart c pre) ∨ (p = groupStart c pre ∧ w = n) := by
    intro p w
    have hpos := hg.rep.placed_pos usedAt_middle
    apply or_congr_left
    rw [← hU]
    dsimp only at hpos
    constructor
    · rintro ⟨hp, hout⟩
      have hne : p ≠ groupStart c pre := by omega
      exact ⟨(hg.used p w hne).mp hp, hne⟩
    · rintro ⟨hp, hne⟩
      have hp' := (hg.used p w hne).mpr hp
      exact ⟨hp', hg.rep.outside_of_ne hp' hne⟩
  refine ⟨_, n, rfl, hn, fun _ _ => rfl, hrest.congr hused, ?_, ?_⟩
  · refine (hg.keeps.mono fun p w hp => (hU p w).mpr hp.1).trans (hkeep.mono fun p w hp => ?_)
    exact (hused p w).mpr (Or.inl hp)
  · intro i hi hiz
    rw [hkeep _ n (Or.inr ⟨rfl, rfl⟩) _ (by omega) (by omega)]
    exact hg.keeps _ z usedAt_middle _ (by omega) (by omega)

theorem runs_memcpy {β : Type} {f : Unit → HeapM β} {R : β → Heap → Prop} {dst src n : ℕ}
    (hr : c.heapLo ≤ dst ∧ dst + n ≤ s.brk ∧ c.heapLo ≤ src ∧ src + n ≤ s.brk)
    (h : Runs (f ()) ⟨copyBytes s.bytes dst src n, s.brk⟩ R) :
    Runs (memcpy c dst src n >>= f) s R := by
  have hcopy : memcpy c dst src n s = .ok ((), ⟨copyBytes s.bytes dst src n, s.brk⟩) := if_pos hr
  refine Runs.bind (P := fun _ t => t = ⟨copyBytes s.bytes dst src n, s.brk⟩) ?_ ?_
  · rw [Runs, hcopy]
  · rintro _ _ rfl
    exact h

/-- The block moves: the new one is allocated, the bytes are copied, the old one is
released. -/
theorem runs_move {r : ℕ} {post' : List Block} {fl' : List ℕ}
    (hg : Grown c s pre post z r t post' fl')
    (hU : ∀ p w, UsedAt c (pre ++ [⟨z, true⟩] ++ post) p w ↔ U p w) (hz : 8 ≤ z) {K : Prop}
    (hK : K → NoAdjacentFree (pre ++ [⟨r, true⟩] ++ post')) (hsize : size ≠ 0) (hwrap : NoWrap c s size) :
    Runs (do
        let newPtr ← mmMalloc c size
        if newPtr = 0 then
          return 0
        else
          memcpy c newPtr (groupStart c pre + 8) (if size < z - 8 then size else z - 8)
          mmFree c (groupStart c pre + 8)
          return newPtr) t
      (fun r t => Reallocated c s U (groupStart c pre) z size r t ∧ (K → Coalesced c t)) := by
  have hrest : Resting c t (UsedAt c (pre ++ [⟨r, true⟩] ++ post')) :=
    ⟨_, fl', hg.rep, hg.complete, fun _ _ => Iff.rfl⟩
  have hwrap' : NoWrap c t size := ⟨hwrap.1, hwrap.2.1, by rw [hg.brk]; exact hwrap.2.2⟩
  have hself : UsedAt c (pre ++ [⟨r, true⟩] ++ post') (groupStart c pre) r := usedAt_middle
  have hle := hg.le
  refine (runs_mmMalloc hrest hsize hwrap').bind ?_
  rintro _ t₂ ⟨⟨b', z', rfl, hz', hfresh, hrest₂, hkeep₂⟩, hcoal₂⟩
  rw [if_neg (by omega)]
  have hne : b' ≠ groupStart c pre := fun heq => hfresh r (heq ▸ hself)
  have hb := hrest₂.bounds (Or.inl hself)
  have hb' := hrest₂.bounds (Or.inr ⟨rfl, rfl⟩)
  have hfirst : c.firstBlock = c.heapLo + 8 := rfl
  generalize hcount : (if size < z - 8 then size else z - 8) = n
  have hn : n ≤ size ∧ n ≤ z - 8 ∧ (n = size ∨ n = z - 8) := by
    rw [← hcount]
    split_ifs <;> omega
  apply runs_memcpy (by omega)
  -- the copy stays inside the payload of the new block
  have hcopy : ∀ x, x < b' + 8 ∨ b' + 8 + n ≤ x →
      copyBytes t₂.bytes (b' + 8) (groupStart c pre + 8) n x = t₂.bytes x :=
    fun x hx => if_neg (by omega)
  obtain ⟨hrest₃, hcoal₃⟩ := hrest₂.write (Or.inr ⟨rfl, rfl⟩) fun x hx => hcopy x (by omega)
  refine (runs_mmFree hrest₃ (Or.inl hself)).bind ?_
  rintro _ t₄ ⟨⟨hrest₄, hkeep₄⟩, hcoal₄⟩
  refine runs_pure ⟨⟨b', z', rfl, hz', ?_, hrest₄.congr ?_, ?_, ?_⟩,
    fun hk => hcoal₄ (hcoal₃ (hcoal₂ (hg.rep.coalesced_iff.mpr (hK hk))))⟩
  · intro w hw
    by_contra hcon
    exact hfresh w ((hg.used b' w hcon).mpr ((hU b' w).mpr hw))
  · intro p w
    constructor
    · rintro ⟨hp | hp, hpne⟩
      · exact Or.inl ⟨(hU p w).mp ((hg.used p w hpne).mp hp), hpne⟩
      · exact Or.inr hp
    · rintro (⟨hp, hpne⟩ | ⟨rfl, rfl⟩)
      · exact ⟨Or.inl ((hg.used p w hpne).mpr ((hU p w).mpr hp)), hpne⟩
      · exact ⟨Or.inr ⟨rfl, rfl⟩, hne⟩
  · rintro p w ⟨hp, hpne⟩ x hx hx'
    have hold := (hU p w).mpr hp
    have hnew := (hg.used p w hpne).mpr hold
    have hap := hrest₂.apart (Or.inl hnew) (Or.inr ⟨rfl, rfl⟩)
    have hpb : p ≠ b' := fun heq => hfresh w (heq ▸ hnew)
    rw [hkeep₄ p w ⟨Or.inl hnew, hpne⟩ x hx hx']
    dsimp only
    rw [hcopy x (by omega), hkeep₂ p w hnew x hx hx', hg.keeps p w hold x hx hx']
  · intro i hi hiz
    rw [hkeep₄ b' z' ⟨Or.inr ⟨rfl, rfl⟩, hne⟩ _ (by omega) (by omega)]
    dsimp only
    rw [copyBytes, if_pos (by omega), Nat.add_sub_cancel_left,
      hkeep₂ _ r hself _ (by omega) (by omega)]
    exact hg.keeps _ z usedAt_middle _ (by omega) (by omega)

/-- The block is used whole. -/
theorem Grown.reallocated_whole {r : ℕ} {post' : List Block} {fl' : List ℕ}
    (hg : Grown c s pre post z r t post' fl')
    (hU : ∀ p w, UsedAt c (pre ++ [⟨z, true⟩] ++ post) p w ↔ U p w) (hle : size + 8 ≤ r) :
    Reallocated c s U (groupStart c pre) z size (groupStart c pre + 8) t := by
  refine hg.reallocated hU hle ⟨_, fl', hg.rep, hg.complete, fun p w => ?_⟩ (Keeps.refl _ _)
  rw [hg.rep.usedAt_retile hg.rep rfl, SplitKeeps]
  simp [placed]

/-- What `mm_realloc` does once it has tried to grow the block in place. -/
theorem runs_resize {r : ℕ} {post' : List Block} {fl' : List ℕ}
    (hg : Grown c s pre post z r t post' fl')
    (hU : ∀ p w, UsedAt c (pre ++ [⟨z, true⟩] ++ post) p w ↔ U p w) (hz : 8 ≤ z) {K : Prop}
    (hK : K → NoAdjacentFree (pre ++ [⟨r, true⟩] ++ post'))
    (hcutK : K → reqSizeFor size + 32 ≤ r → headUsed post' = true)
    (hsize : size ≠ 0) (hwrap : NoWrap c s size) :
    Runs (if reqSizeFor size ≤ r then
        if wsub r (reqSizeFor size) ≥ MIN_BLOCK_SIZE then do
          splitBlock c (groupStart c pre) (reqSizeFor size) r (2 * (lastUsed true pre).toNat)
          store c (wadd (groupStart c pre) r)
            ((← load c (wadd (groupStart c pre) r)) &&& complement TAG_PRECEDING_USED)
          pure (groupStart c pre + 8)
        else pure (groupStart c pre + 8)
      else do
        let newPtr ← mmMalloc c size
        if newPtr = 0 then
          pure 0
        else
          memcpy c newPtr (groupStart c pre + 8) (if size < z - 8 then size else z - 8)
          mmFree c (groupStart c pre + 8)
          pure newPtr) t
      (fun r t => Reallocated c s U (groupStart c pre) z size r t ∧ (K → Coalesced c t)) := by
  obtain ⟨hdvd, hmin, hreq⟩ := reqSizeFor_spec hwrap.1
  have hmid : HeapRep c t (pre ++ ⟨r, true⟩ :: post') fl' := by simpa using hg.rep
  obtain ⟨-, -, -, hend, -⟩ := hmid.middle
  have hlt := hg.rep.brk_lt
  dsimp only at hend
  by_cases hfits : reqSizeFor size ≤ r
  · rw [if_pos hfits, wsub_eq hfits (by omega), wadd_eq (by omega)]
    by_cases hcut : r - reqSizeFor size ≥ MIN_BLOCK_SIZE
    · rw [if_pos hcut]
      rw [MIN_BLOCK_SIZE] at hcut
      have hrun := (runs_splitUsed hg.rep hdvd hmin (by omega)
        (hg.rep.listsOutside hg.complete)).bind (f := fun _ => pure (groupStart c pre + 8))
          (R := fun r t => Reallocated c s U (groupStart c pre) z size r t ∧ (K → Coalesced c t))
            fun _ u hu => ⟨hg.reallocated hU hreq hu.1.resting hu.2,
              fun hk => hu.1.coalesced ((hK hk).cut (hcutK hk (by omega)))⟩
      simpa only [bind_assoc] using hrun
    · rw [if_neg hcut]
      exact runs_pure ⟨hg.reallocated_whole hU (hreq.trans hfits),
        fun hk => hg.rep.coalesced_iff.mpr (hK hk)⟩
  · rw [if_neg hfits]
    exact runs_move hg hU hz hK hsize hwrap

/-- The block at `b` is cut in place to fit `size` bytes, and a free block follows it. -/
def CutsBeforeFree (s : Heap) (b size : ℕ) : Prop :=
  reqSizeFor size + MIN_BLOCK_SIZE ≤ SIZE (word s.bytes b) ∧
    word s.bytes (b + SIZE (word s.bytes b)) &&& TAG_USED = 0

instance (s : Heap) (b size : ℕ) : Decidable (CutsBeforeFree s b size) :=
  inferInstanceAs (Decidable (_ ∧ _))

theorem runs_mmRealloc (h : Resting c s U) {b z : ℕ} (hb : U b z) (hsize : size ≠ 0)
    (hwrap : NoWrap c s size) :
    Runs (mmRealloc c (b + 8) size) s (fun r t => Reallocated c s U b z size r t ∧
      (Coalesced c s ∧ ¬ CutsBeforeFree s b size → Coalesced c t)) := by
  have hbounds := h.bounds hb
  obtain ⟨bs, fl, hrep, hc, hU⟩ := h
  obtain ⟨pre, post, rfl, rfl⟩ := exists_split_of_usedAt ((hU b z).mpr hb)
  have h' : HeapRep c s (pre ++ ⟨z, true⟩ :: post) fl := by simpa using hrep
  obtain ⟨hhead, hzdvd, hzmin, hend, -⟩ := h'.middle
  have hrange := groupStart_range h'
  have hlt := hrep.brk_lt
  have hreq := (reqSizeFor_spec hwrap.1).2.2
  have hfirst : c.firstBlock = c.heapLo + 8 := rfl
  dsimp only at hhead hzdvd hzmin hend
  rw [mmRealloc, wsub_eq (by rw [WORD_SIZE]; omega) (by omega), WORD_SIZE, Nat.add_sub_cancel]
  apply runs_load hrange
  dsimp only
  rw [hhead, SIZE_tagged hzdvd (by omega), if_neg (by omega), if_neg hsize,
    wsub_eq (by omega) (by omega)]
  by_cases hsame : reqSizeFor size = z
  · rw [if_pos hsame]
    exact runs_pure ⟨(Grown.refl hrep hc).reallocated_whole hU (by omega), fun hk => hk.1⟩
  · rw [if_neg hsame]
    apply runs_load hrange
    rw [hhead, tagged_land_preceding hzdvd]
    by_cases hgrow : z < reqSizeFor size
    · rw [if_pos hgrow]
      refine (runs_growInPlace hrep hc _).bind ?_
      rintro r t ⟨post', fl', hg, hapart⟩
      have hK := fun hk : Coalesced c s ∧ ¬ CutsBeforeFree s (groupStart c pre) size =>
        hapart (hrep.coalesced_iff.mp hk.1)
      exact runs_resize hg hU (by omega) (fun hk => (hK hk).1)
        (fun hk hcut => (hK hk).2 (by omega)) hsize hwrap
    · rw [if_neg hgrow]
      refine runs_resize (Grown.refl hrep hc) hU (by omega)
        (fun hk => hrep.coalesced_iff.mp hk.1) (fun hk hcut => ?_) hsize hwrap
      -- the block is cut, so what follows it is in use
      obtain ⟨w, used, hnext, hwdvd, -, -, -, hused⟩ := hrep.after
      rw [hused]
      by_contra hfree
      rw [Bool.not_eq_true] at hfree
      refine hk.2 ⟨?_, ?_⟩
      · rw [hhead, SIZE_tagged hzdvd (by omega), MIN_BLOCK_SIZE]
        exact hcut
      · rw [hhead, SIZE_tagged hzdvd (by omega), hnext, tagged_land_used hwdvd, hfree]
        rfl

/-- A size of zero releases the block. -/
theorem runs_mmRealloc_zero (h : Resting c s U) {b z : ℕ} (hb : U b z) :
    Runs (mmRealloc c (b + 8) 0) s
      (fun r t => (r = 0 ∧ Released c s U b t) ∧ (Coalesced c s → Coalesced c t)) := by
  have hbounds := h.bounds hb
  have hlt : s.brk < 2 ^ 64 := by
    obtain ⟨bs, fl, hrep, -⟩ := h
    exact hrep.brk_lt
  have hfirst : c.firstBlock = c.heapLo + 8 := rfl
  rw [mmRealloc, wsub_eq (by rw [WORD_SIZE]; omega) (by omega), WORD_SIZE, Nat.add_sub_cancel]
  apply runs_load (by omega)
  dsimp only
  rw [if_neg (by omega), if_pos rfl]
  refine (runs_mmFree h hb).bind ?_
  intro _ t ht
  exact runs_pure ⟨⟨rfl, ht.1⟩, ht.2⟩

end Courses.MallocLab
