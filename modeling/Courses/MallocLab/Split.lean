import Courses.MallocLab.Growth

/-!
# Splitting a block

The two ways a block is put to use: whole, or cut in two with the rest given back
to the list. `mm_malloc` does it to a free block, `mm_realloc` to a used one.
-/
namespace Courses.MallocLab

open Courses.Lib

variable {c : Config} {s t : Heap} {bs pre post : List Block} {fl : List ℕ} {p : ℕ}

theorem setWord_setWord_same (m : Mem) (a v w : ℕ) : setWord (setWord m a v) a w = setWord m a w := by
  funext x
  rw [setWord, setWord, setWord]
  split_ifs <;> rfl

/-- The memory with the block at `a` of `z` bytes cut in two: `n` bytes in use, the
rest free. -/
def markSplit (m : Mem) (a n z : ℕ) (preceding : Bool) : Mem :=
  setWord (setWord (setWord m a (tagged n preceding true)) (a + n) (tagged (z - n) true false))
    (a + (z - 8)) (tagged (z - n) true false)

section Split

variable {n z : ℕ} {u : Bool}

theorem markSplit_outside {m : Mem} {a n z x : ℕ} {preceding : Bool} (hn : 32 ≤ n)
    (hz : n + 32 ≤ z) (hx : x < a ∨ a + z ≤ x) : markSplit m a n z preceding x = m x := by
  rw [markSplit, setWord_outside (by omega), setWord_outside (by omega),
    setWord_outside (by omega)]

theorem HeapRep.apart_block (h : HeapRep c s (pre ++ [⟨z, u⟩] ++ post) fl)
    (hl : ListsOutside c pre [⟨z, u⟩] post fl) (hp : p ∈ fl) :
    p + 32 ≤ groupStart c pre ∨ groupStart c pre + z ≤ p := by
  obtain ⟨w, hw⟩ := h.free p hp
  have hsize := h.placed_pos hw
  have hspan : span [(⟨z, u⟩ : Block)] = z := by simp
  have hout := bounds_outside hw ((hl p).mp hp).2
  rw [hspan] at hout
  dsimp only at hsize hout
  omega

/-- The heap once the tag of the block after the split is right as well. -/
theorem HeapRep.split (h : HeapRep c s (pre ++ [⟨z, u⟩] ++ post) fl) (hdvd : 8 ∣ n)
    (hn : 32 ≤ n) (hz : n + 32 ≤ z) (hl : ListsOutside c pre [⟨z, u⟩] post fl) {m' : Mem}
    (hm : ∀ x, x < groupStart c pre + z ∨ groupStart c pre + z + 8 ≤ x →
      m' x = markSplit s.bytes (groupStart c pre) n z (lastUsed true pre) x)
    (hnext : word m' (groupStart c pre + z) + 2 * u.toNat = word s.bytes (groupStart c pre + z)) :
    HeapRep c { s with bytes := m' } (pre ++ [⟨n, true⟩, ⟨z - n, false⟩] ++ post) fl := by
  have h' : HeapRep c s (pre ++ ⟨z, u⟩ :: post) fl := by simpa using h
  obtain ⟨-, hzdvd, -, hend, -⟩ := h'.middle
  have hlt := h.brk_lt
  dsimp only at hzdvd hend
  have hspan : span [(⟨z, u⟩ : Block)] = z := by simp
  have hbits := tagged_bits_lt (lastUsed true pre) true
  have htag : tagged n (lastUsed true pre) true < 2 ^ 64 := by
    rw [tagged]
    omega
  have htag' : tagged (z - n) true false < 2 ^ 64 := by
    have := tagged_bits_lt true false
    rw [tagged]
    omega
  have hword : ∀ a, a + 8 ≤ groupStart c pre + z → word m' a =
      word (markSplit s.bytes (groupStart c pre) n z (lastUsed true pre)) a := fun a ha =>
    word_congr fun x _ _ => hm x (by omega)
  refine h.retile (by rw [hspan, span_cons, span_cons, span_nil]; dsimp only; omega) ?_ ?_ ?_ ?_
  · intro x hx
    rw [hspan] at hx
    rw [hm x (by omega), markSplit_outside hn hz (by omega)]
  · have hrest : 8 ∣ z - n := Nat.dvd_sub hzdvd hdvd
    have haddr : groupStart c pre + n + (z - n) - 8 = groupStart c pre + (z - 8) := by omega
    have hfront : word m' (groupStart c pre) = tagged n (lastUsed true pre) true := by
      rw [hword _ (by omega), markSplit, word_setWord_of_disjoint (by omega),
        word_setWord_of_disjoint (by omega), word_setWord_self htag]
    have hback : word m' (groupStart c pre + n) = tagged (z - n) true false := by
      rw [hword _ (by omega), markSplit, word_setWord_of_disjoint (by omega),
        word_setWord_self htag']
    have hend : SIZE (word m' (groupStart c pre + n + (z - n) - 8)) = z - n := by
      rw [haddr, hword _ (by omega), markSplit, word_setWord_self htag',
        SIZE_tagged hrest (by omega)]
    rw [Tiles, Tiles]
    refine ⟨hdvd, hn, hfront, fun hu => Bool.noConfusion hu, hrest, ?_, hback, fun _ => hend,
      trivial⟩
    change 32 ≤ z - n
    omega
  · rw [hspan]
    simp only [lastUsed, Bool.toNat_false, Nat.mul_zero, Nat.add_zero]
    exact hnext
  · exact fun p hp => ((hl p).mp hp).2

/-- The stores of `splitBlock` and its insertion into the list. -/
theorem runs_splitBlock (h : HeapRep c s (pre ++ [⟨z, u⟩] ++ post) fl) (hdvd : 8 ∣ n)
    (hn : 32 ≤ n) (hz : n + 32 ≤ z) (hl : ListsOutside c pre [⟨z, u⟩] post fl) :
    Runs (splitBlock c (groupStart c pre) n z (2 * (lastUsed true pre).toNat)) s (fun _ t =>
      FreeList c t.bytes ((groupStart c pre + n) :: fl) ∧ t.brk = s.brk ∧
        ∀ x, ¬ ListByte c ((groupStart c pre + n) :: fl) x →
          t.bytes x = markSplit s.bytes (groupStart c pre) n z (lastUsed true pre) x) := by
  have h' : HeapRep c s (pre ++ ⟨z, u⟩ :: post) fl := by simpa using h
  obtain ⟨-, hzdvd, -, hend, -⟩ := h'.middle
  have hrange := groupStart_range h'
  have hlt := h.brk_lt
  have hfirst : c.firstBlock = c.heapLo + 8 := rfl
  have hstart : groupStart c pre = c.firstBlock + span pre := rfl
  dsimp only at hzdvd hend
  have hrest : 8 ∣ z - n := Nat.dvd_sub hzdvd hdvd
  have hbits := tagged_bits_lt (lastUsed true pre) false
  have htag : tagged n (lastUsed true pre) false < 2 ^ 64 := by
    rw [tagged]
    omega
  have hlor : (z - n) ||| TAG_PRECEDING_USED = tagged (z - n) true false := lor_preceding hrest true
  have hapart : ∀ q ∈ fl, q + 32 ≤ groupStart c pre ∨ groupStart c pre + z ≤ q :=
    fun q hq => h.apart_block hl hq
  rw [splitBlock, lor_preceding hdvd, wsub_eq (by omega) (by omega),
    wsub_eq (by rw [WORD_SIZE]; omega) (by omega), WORD_SIZE, wadd_eq (by omega),
    wadd_eq (by omega), hlor]
  apply runs_store (by omega)
  apply runs_load (by dsimp only; omega)
  dsimp only
  rw [word_setWord_self htag, tagged_lor_used hdvd]
  apply runs_store (by dsimp only; omega)
  apply runs_store (by dsimp only; omega)
  apply runs_store (by dsimp only; omega)
  dsimp only
  rw [setWord_setWord_same]
  have hlist : ListRep c ⟨markSplit s.bytes (groupStart c pre) n z (lastUsed true pre), s.brk⟩
      fl := by
    have hl := h.listRep
    obtain ⟨hhead, b, hseg⟩ := hl.list
    refine ⟨⟨?_, b, ?_⟩, hl.nodup, hl.apart, hl.bounds, hl.firstBlock_le, hl.brk_lt⟩
    · rw [← hhead]
      exact word_congr fun x _ hx => markSplit_outside hn hz (by omega)
    · refine hseg.frame fun q hq x hx hx' => markSplit_outside hn hz ?_
      have := hapart q hq
      omega
  refine (hlist.runs_insertFreeBlock (by dsimp only; omega) fun q hq => ?_).mono fun _ t ht => ht
  have := hapart q hq
  omega

/-- The used blocks that a split of the block after `pre` leaves alone, and what is
left of that block itself. -/
def SplitKeeps (c : Config) (pre post : List Block) (z n : ℕ) (u : Bool) (p w : ℕ) : Prop :=
  (UsedAt c (pre ++ [⟨z, u⟩] ++ post) p w ∧ (p < groupStart c pre ∨ groupStart c pre + z ≤ p)) ∨
    (p = groupStart c pre ∧ w = n)

/-- The heap after a split: the front is used, the rest is on the list. -/
theorem HeapRep.carve (h : HeapRep c s (pre ++ [⟨z, u⟩] ++ post) fl) (hdvd : 8 ∣ n)
    (hn : 32 ≤ n) (hz : n + 32 ≤ z) (hl : ListsOutside c pre [⟨z, u⟩] post fl) {m' : Mem}
    (hlist : FreeList c m' ((groupStart c pre + n) :: fl))
    (hm : ∀ x, ¬ ListByte c ((groupStart c pre + n) :: fl) x →
      (x < groupStart c pre + z ∨ groupStart c pre + z + 8 ≤ x) →
        m' x = markSplit s.bytes (groupStart c pre) n z (lastUsed true pre) x)
    (hnext : word m' (groupStart c pre + z) + 2 * u.toNat = word s.bytes (groupStart c pre + z)) :
    HeapRep c { s with bytes := m' } (pre ++ [⟨n, true⟩, ⟨z - n, false⟩] ++ post)
        ((groupStart c pre + n) :: fl) ∧
      Complete c (pre ++ [⟨n, true⟩, ⟨z - n, false⟩] ++ post) ((groupStart c pre + n) :: fl) ∧
      (∀ p w, UsedAt c (pre ++ [⟨n, true⟩, ⟨z - n, false⟩] ++ post) p w ↔
        SplitKeeps c pre post z n u p w) ∧
      Keeps (SplitKeeps c pre post z n u) s.bytes m' := by
  have hspan : span [(⟨z, u⟩ : Block)] = z := by simp
  have hspan' : span [⟨n, true⟩, ⟨z - n, false⟩] = span [(⟨z, u⟩ : Block)] := by
    simp only [span_cons, span_nil]
    omega
  -- the memory without the insertion into the list
  let mv : Mem := fun x => if groupStart c pre + z ≤ x ∧ x < groupStart c pre + z + 8 then m' x
    else markSplit s.bytes (groupStart c pre) n z (lastUsed true pre) x
  have hmv : ∀ x, x < groupStart c pre + z ∨ groupStart c pre + z + 8 ≤ x →
      mv x = markSplit s.bytes (groupStart c pre) n z (lastUsed true pre) x := by
    intro x hx
    exact if_neg (by omega)
  have hmvnext : word mv (groupStart c pre + z) = word m' (groupStart c pre + z) :=
    word_congr fun x hx hx' => if_pos ⟨hx, hx'⟩
  have hsplit := h.split hdvd hn hz hl hmv (by rw [hmvnext]; exact hnext)
  have hm' : ∀ x, ¬ ListByte c ((groupStart c pre + n) :: fl) x → m' x = mv x := by
    intro x hx
    by_cases hin : groupStart c pre + z ≤ x ∧ x < groupStart c pre + z + 8
    · exact (if_pos hin).symm
    · rw [hmv x (by omega)]
      exact hm x hx (by omega)
  have hfree : ∀ p ∈ (groupStart c pre + n) :: fl,
      ∃ w, FreeAt c (pre ++ [⟨n, true⟩, ⟨z - n, false⟩] ++ post) p w := by
    intro p hp
    rcases List.mem_cons.mp hp with rfl | hp
    · refine ⟨z - n, ?_⟩
      rw [FreeAt, placed_group]
      simp [placed]
    · exact hsplit.free p hp
  have hnodup : ((groupStart c pre + n) :: fl).Nodup := by
    refine List.nodup_cons.mpr ⟨fun hp => ?_, h.nodup⟩
    have := h.apart_block hl hp
    omega
  have hrep := hsplit.relist hm' hfree hlist hnodup (List.Subset.refl _)
  have hused : ∀ p w, UsedAt c (pre ++ [⟨n, true⟩, ⟨z - n, false⟩] ++ post) p w ↔
      SplitKeeps c pre post z n u p w := by
    intro p w
    rw [h.usedAt_retile hrep hspan', hspan, SplitKeeps]
    simp [placed]
  refine ⟨hrep, ?_, hused, ?_⟩
  · apply HeapRep.complete_retile hl hrep hspan' (List.subset_cons_self _ _)
    intro p w hp
    simp only [placed, List.mem_cons, Prod.mk.injEq, Block.mk.injEq, List.not_mem_nil] at hp
    rcases hp with ⟨-, -, hp⟩ | ⟨rfl, -⟩ | hp
    · cases hp
    · exact List.mem_cons_self
    · exact absurd hp id
  · have hkeep : Keeps (SplitKeeps c pre post z n u) s.bytes mv := by
      rintro p w (⟨hp, hout⟩ | ⟨rfl, rfl⟩) x hx hx'
      · have hb := bounds_outside hp (by rw [hspan]; exact hout)
        have hpos := h.placed_pos hp
        rw [hspan] at hb
        dsimp only at hb hpos
        rw [hmv x (by omega), markSplit_outside hn hz (by omega)]
      · rw [hmv x (by omega), markSplit, setWord_outside (by omega), setWord_outside (by omega),
          setWord_outside (by omega)]
    exact hkeep.trans ((hsplit.keeps_list hm' hfree).mono fun p w hp => (hused p w).mpr hp)

/-- A heap between two calls: every free block is on the list, and the used blocks
are those of `U`. -/
def Resting (c : Config) (s : Heap) (U : ℕ → ℕ → Prop) : Prop :=
  ∃ bs fl, HeapRep c s bs fl ∧ Complete c bs fl ∧ ∀ p z, UsedAt c bs p z ↔ U p z

/-- A heap between two calls that consists of the blocks `bs`. -/
def RestingOn (c : Config) (s : Heap) (bs : List Block) (U : ℕ → ℕ → Prop) : Prop :=
  ∃ fl, HeapRep c s bs fl ∧ Complete c bs fl ∧ ∀ p z, UsedAt c bs p z ↔ U p z

theorem RestingOn.resting {U : ℕ → ℕ → Prop} (h : RestingOn c s bs U) : Resting c s U := ⟨bs, h⟩

theorem RestingOn.coalesced {U : ℕ → ℕ → Prop} (h : RestingOn c s bs U) (hbs : NoAdjacentFree bs) :
    Coalesced c s := by
  obtain ⟨fl, hrep, -⟩ := h
  exact hrep.coalesced_iff.mpr hbs

/-- The header after a block, or the last word of the heap. -/
theorem HeapRep.after (h : HeapRep c s (pre ++ [⟨z, u⟩] ++ post) fl) :
    ∃ size used, word s.bytes (groupStart c pre + z) = tagged size u used ∧ 8 ∣ size ∧
      size < 2 ^ 64 - 8 ∧ groupStart c pre + z + 8 ≤ s.brk ∧
        (used = false → ∃ ds, post = ⟨size, false⟩ :: ds) ∧ headUsed post = used := by
  obtain ⟨size, used, hword, hdvd, hlt, hrange, hpost, hhead⟩ := h.following
  have hstart : groupStart c (pre ++ [⟨z, u⟩]) = groupStart c pre + z := by
    rw [groupStart_append, span_cons, span_nil, Nat.add_zero]
  rw [hstart, lastUsed_concat] at hword
  rw [hstart] at hrange
  refine ⟨size, used, hword, hdvd, hlt, hrange, fun hu => ?_, hhead⟩
  obtain ⟨d, ds, rfl, rfl⟩ := hpost hu
  exact ⟨ds, rfl⟩

/-- The header after the block holds no links. -/
theorem HeapRep.not_listByte_after (h : HeapRep c s (pre ++ [⟨z, u⟩] ++ post) fl)
    (hl : ListsOutside c pre [⟨z, u⟩] post fl) (hz : n + 32 ≤ z) {x : ℕ}
    (hx : groupStart c pre + z ≤ x) (hx' : x < groupStart c pre + z + 8) :
    ¬ ListByte c ((groupStart c pre + n) :: fl) x := by
  have hstart : groupStart c pre = c.firstBlock + span pre := rfl
  rintro (hlo | ⟨q, hq, hqx⟩)
  · omega
  · rcases List.mem_cons.mp hq with rfl | hq
    · omega
    · have := h.apart_block hl hq
      omega

/-- `mm_malloc` cuts a free block that is off the list. -/
theorem runs_splitFree (h : HeapRep c s (pre ++ [⟨z, false⟩] ++ post) fl) (hdvd : 8 ∣ n)
    (hn : 32 ≤ n) (hz : n + 32 ≤ z) (hl : ListsOutside c pre [⟨z, false⟩] post fl) :
    Runs (splitBlock c (groupStart c pre) n z (2 * (lastUsed true pre).toNat)) s (fun _ t =>
      RestingOn c t (pre ++ [⟨n, true⟩, ⟨z - n, false⟩] ++ post) (SplitKeeps c pre post z n false) ∧
        Keeps (SplitKeeps c pre post z n false) s.bytes t.bytes) := by
  refine (runs_splitBlock h hdvd hn hz hl).mono ?_
  rintro _ ⟨m', _⟩ ⟨hlist, rfl, hm⟩
  dsimp only at hlist hm
  have hnext : word m' (groupStart c pre + z) = word s.bytes (groupStart c pre + z) := by
    apply word_congr
    intro x hx hx'
    rw [hm x (h.not_listByte_after hl hz hx hx'), markSplit_outside hn hz (Or.inr hx)]
  obtain ⟨hrep, hcomplete, hused, hkeep⟩ := h.carve hdvd hn hz hl hlist (fun x hx _ => hm x hx)
    (by rw [hnext, Bool.toNat_false, Nat.mul_zero, Nat.add_zero])
  exact ⟨⟨_, hrep, hcomplete, hused⟩, hkeep⟩

/-- `mm_realloc` cuts a used block and tells the block after it. -/
theorem runs_splitUsed (h : HeapRep c s (pre ++ [⟨z, true⟩] ++ post) fl) (hdvd : 8 ∣ n)
    (hn : 32 ≤ n) (hz : n + 32 ≤ z) (hl : ListsOutside c pre [⟨z, true⟩] post fl) :
    Runs (do
        splitBlock c (groupStart c pre) n z (2 * (lastUsed true pre).toNat)
        store c (groupStart c pre + z)
          ((← load c (groupStart c pre + z)) &&& complement TAG_PRECEDING_USED)) s (fun _ t =>
      RestingOn c t (pre ++ [⟨n, true⟩, ⟨z - n, false⟩] ++ post) (SplitKeeps c pre post z n true) ∧
        Keeps (SplitKeeps c pre post z n true) s.bytes t.bytes) := by
  obtain ⟨size, used, hword, hsize, hlt, hrange, -⟩ := h.after
  have hstart : groupStart c pre = c.firstBlock + span pre := rfl
  have hfirst : c.firstBlock = c.heapLo + 8 := rfl
  refine (runs_splitBlock h hdvd hn hz hl).bind ?_
  rintro _ ⟨m, _⟩ ⟨hlist, rfl, hm⟩
  dsimp only at hlist hm
  have hsame : word m (groupStart c pre + z) = tagged size true used := by
    rw [← hword]
    apply word_congr
    intro x hx hx'
    rw [hm x (h.not_listByte_after hl hz hx hx'), markSplit_outside hn hz (Or.inr hx)]
  apply runs_load (by dsimp only; omega)
  apply runs_store_last (by dsimp only; omega)
  dsimp only
  rw [hsame, tagged_land_not_preceding hsize (by omega)]
  have hself : word (setWord m (groupStart c pre + z) (tagged size false used))
      (groupStart c pre + z) = tagged size false used := by
    apply word_setWord_self
    have := tagged_bits_lt false used
    rw [tagged]
    omega
  have hlist' : FreeList c (setWord m (groupStart c pre + z) (tagged size false used))
      ((groupStart c pre + n) :: fl) := by
    obtain ⟨hhead, b, hseg⟩ := hlist
    refine ⟨?_, b, hseg.store fun q hq => ?_⟩
    · rw [word_setWord_of_disjoint (by omega), hhead]
    · rcases List.mem_cons.mp hq with rfl | hq
      · omega
      · have := h.apart_block hl hq
        omega
  obtain ⟨hrep, hcomplete, hused, hkeep⟩ := h.carve hdvd hn hz hl hlist'
    (fun x hx hout => by rw [setWord_outside hout]; exact hm x hx)
    (by rw [hself, hword, tagged, tagged, Bool.toNat_true, Bool.toNat_false]; omega)
  exact ⟨⟨_, hrep, hcomplete, hused⟩, hkeep⟩

/-- `mm_malloc` uses a whole free block that is off the list. -/
theorem runs_useWhole (h : HeapRep c s (pre ++ [⟨z, false⟩] ++ post) fl)
    (hl : ListsOutside c pre [⟨z, false⟩] post fl) :
    Runs (do
        store c (groupStart c pre + z)
          ((← load c (groupStart c pre + z)) ||| TAG_PRECEDING_USED)
        store c (groupStart c pre) ((← load c (groupStart c pre)) ||| TAG_USED)) s (fun _ t =>
      RestingOn c t (pre ++ [⟨z, true⟩] ++ post) (SplitKeeps c pre post z z false) ∧
        Keeps (SplitKeeps c pre post z z false) s.bytes t.bytes) := by
  have h' : HeapRep c s (pre ++ ⟨z, false⟩ :: post) fl := by simpa using h
  obtain ⟨hhead, hzdvd, hzmin, hend, -⟩ := h'.middle
  obtain ⟨size, used, hword, hsize, hlt, hrange, -⟩ := h.after
  have hstart : groupStart c pre = c.firstBlock + span pre := rfl
  have hfirst : c.firstBlock = c.heapLo + 8 := rfl
  have hbrk := h.brk_lt
  dsimp only at hhead hzdvd hzmin hend
  have hspan : span [(⟨z, false⟩ : Block)] = z := by simp
  have hspan' : span [(⟨z, true⟩ : Block)] = span [(⟨z, false⟩ : Block)] := rfl
  apply runs_load (by omega)
  rw [hword, tagged_lor_preceding hsize]
  apply runs_store (by omega)
  apply runs_load (by dsimp only; omega)
  apply runs_store_last (by dsimp only; omega)
  dsimp only
  rw [word_setWord_of_disjoint (by omega), hhead, tagged_lor_used hzdvd]
  have htag : tagged size true used < 2 ^ 64 := by
    have := tagged_bits_lt true used
    rw [tagged]
    omega
  have htag' : tagged z (lastUsed true pre) true < 2 ^ 64 := by
    have := tagged_bits_lt (lastUsed true pre) true
    rw [tagged]
    omega
  have hout : ∀ x, x < groupStart c pre ∨ groupStart c pre + span [(⟨z, false⟩ : Block)] + 8 ≤ x →
      setWord (setWord s.bytes (groupStart c pre + z) (tagged size true used)) (groupStart c pre)
        (tagged z (lastUsed true pre) true) x = s.bytes x := by
    intro x hx
    rw [hspan] at hx
    rw [setWord_outside (by omega), setWord_outside (by omega)]
  have hrep : HeapRep c _ (pre ++ [⟨z, true⟩] ++ post) fl := h.retile hspan' hout
    ⟨hzdvd, hzmin, word_setWord_self htag', fun hu => Bool.noConfusion hu, trivial⟩
    (by
      rw [hspan, word_setWord_of_disjoint (by omega), word_setWord_self htag, hword]
      simp only [lastUsed, tagged, Bool.toNat_true, Bool.toNat_false]
      omega)
    (fun p hp => ((hl p).mp hp).2)
  have hused : ∀ p w, UsedAt c (pre ++ [⟨z, true⟩] ++ post) p w ↔
      SplitKeeps c pre post z z false p w := by
    intro p w
    rw [h.usedAt_retile hrep hspan', hspan, SplitKeeps]
    simp [placed]
  refine ⟨⟨_, hrep, ?_, hused⟩, ?_⟩
  · apply HeapRep.complete_retile hl hrep hspan' (List.Subset.refl _)
    intro p w hp
    simp [placed] at hp
  · rintro p w (⟨hp, hside⟩ | ⟨rfl, rfl⟩) x hx hx'
    · exact h.keeps_outside hout p w ⟨hp, by rw [hspan]; exact hside⟩ x hx hx'
    · rw [setWord_outside (by omega), setWord_outside (by omega)]

end Split
end Courses.MallocLab
