import Courses.MallocLab.Split

/-!
# The calls of the allocator

The effect of `mm_init`, `mm_malloc`, `mm_free` and `mm_realloc` in terms of the used
blocks: which ones there are afterwards and whose bytes are untouched. Each call
takes a heap between two calls to another.
-/
namespace Courses.MallocLab

open Courses.Lib

variable {c : Config} {s t : Heap} {bs pre post : List Block} {fl : List ℕ} {p z size : ℕ}
  {U V : ℕ → ℕ → Prop}

theorem Resting.congr (h : Resting c s U) (hUV : ∀ p z, U p z ↔ V p z) : Resting c s V := by
  obtain ⟨bs, fl, hrep, hc, hU⟩ := h
  exact ⟨bs, fl, hrep, hc, fun p z => (hU p z).trans (hUV p z)⟩

/-- Between two calls the list is complete, so a group without free blocks is off it. -/
theorem HeapRep.listsOutside (h : HeapRep c s (pre ++ [⟨z, true⟩] ++ post) fl)
    (hc : Complete c (pre ++ [⟨z, true⟩] ++ post) fl) : ListsOutside c pre [⟨z, true⟩] post fl := by
  intro q
  constructor
  · intro hq
    obtain ⟨w, hw⟩ := h.free q hq
    have hpos := h.placed_pos hw
    refine ⟨⟨w, hw⟩, ?_⟩
    rcases (mem_placed_retile (Nat.lt_of_lt_of_le (by decide) hpos) rfl).mp hw with ⟨-, hout⟩ | hin
    · exact hout
    · simp [placed] at hin
  · rintro ⟨⟨w, hw⟩, -⟩
    exact hc q w hw

/-- Another used block lies outside this one. -/
theorem HeapRep.outside_of_ne {u : Bool} {w : ℕ}
    (h : HeapRep c s (pre ++ [⟨z, u⟩] ++ post) fl)
    (hp : UsedAt c (pre ++ [⟨z, u⟩] ++ post) p w) (hne : p ≠ groupStart c pre) :
    p < groupStart c pre ∨ groupStart c pre + z ≤ p := by
  rcases (h.usedAt_retile h rfl p w).mp hp with ⟨-, hout⟩ | hin
  · simpa using hout
  · simp only [placed, List.mem_singleton, Prod.mk.injEq] at hin
    exact absurd hin.1 hne

theorem usedAt_middle : UsedAt c (pre ++ [⟨z, true⟩] ++ post) (groupStart c pre) z := by
  rw [List.append_assoc]
  exact mem_placed_middle _ _ _ _

/-- A used block as the middle one of three groups. -/
theorem exists_split_of_usedAt (h : UsedAt c bs p z) :
    ∃ pre post, bs = pre ++ [⟨z, true⟩] ++ post ∧ p = groupStart c pre := by
  obtain ⟨pre, post, rfl, rfl⟩ := exists_split_of_mem_placed h
  exact ⟨pre, post, by simp, rfl⟩

namespace Resting

variable {q w : ℕ}

/-- A used block lies inside the heap, its payload aligned. -/
theorem bounds (h : Resting c s U) (hp : U p z) :
    c.firstBlock ≤ p ∧ p + z + 8 ≤ s.brk ∧ 32 ≤ z ∧ 8 ∣ p := by
  obtain ⟨bs, fl, hrep, -, hU⟩ := h
  rw [← hU] at hp
  obtain ⟨pre, post, rfl, rfl⟩ := exists_split_of_usedAt hp
  have hpos := hrep.placed_pos hp
  have hb := placed_bounds hp
  have hbrk := hrep.brk
  have hpre := ((tiles_append _ _ _ _).mp ((tiles_append _ _ _ _).mp hrep.tiles).1).1.dvd_span
  have hlo := c.heapLo_aligned
  dsimp only at hpos hb
  refine ⟨hb.1, by omega, hpos, ?_⟩
  rw [groupStart, Config.firstBlock]
  omega

/-- Two used blocks are the same or do not overlap. -/
theorem apart (h : Resting c s U) (hp : U p z) (hq : U q w) :
    (p = q ∧ z = w) ∨ p + z ≤ q ∨ q + w ≤ p := by
  obtain ⟨bs, fl, hrep, -, hU⟩ := h
  rw [← hU] at hp hq
  rcases placed_apart hp hq with ⟨hpq, hzw⟩ | hap
  · cases hzw
    exact Or.inl ⟨hpq, rfl⟩
  · exact Or.inr hap

/-- A store inside the payload of a used block. -/
theorem write (h : Resting c s U) (hp : U p z) {m' : Mem}
    (hm : ∀ x, x < p + 8 ∨ p + z ≤ x → m' x = s.bytes x) :
    Resting c ⟨m', s.brk⟩ U ∧ (Coalesced c s → Coalesced c ⟨m', s.brk⟩) := by
  obtain ⟨bs, fl, hrep, hc, hU⟩ := h
  rw [← hU] at hp
  obtain ⟨pre, post, rfl, rfl⟩ := exists_split_of_usedAt hp
  have h' : HeapRep c s (pre ++ ⟨z, true⟩ :: post) fl := by simpa using hrep
  obtain ⟨hhead, hdvd, hmin, -⟩ := h'.middle
  have hspan : span [(⟨z, true⟩ : Block)] = z := by simp
  dsimp only at hhead hdvd hmin
  have hrep' : HeapRep c ⟨m', s.brk⟩ (pre ++ [⟨z, true⟩] ++ post) fl := by
    apply hrep.retile rfl
    · intro x hx
      rw [hspan] at hx
      exact hm x (by omega)
    · refine ⟨hdvd, hmin, ?_, fun hu => Bool.noConfusion hu, trivial⟩
      rw [← hhead]
      exact word_congr fun x _ hx => hm x (Or.inl hx)
    · rw [hspan, word_congr fun x hx _ => hm x (Or.inr hx)]
    · exact fun q hq => ((hrep.listsOutside hc q).mp hq).2
  refine ⟨⟨_, fl, hrep', hc, hU⟩, fun hs => ?_⟩
  exact hrep'.coalesced_iff.mpr (hrep.coalesced_iff.mp hs)

end Resting

/-! ## Allocation -/

/-- None of the arithmetic on a request wraps. -/
def NoWrap (c : Config) (s : Heap) (size : ℕ) : Prop :=
  size + 15 < 2 ^ 64 ∧ reqSizeFor size + c.pagesize ≤ 2 ^ 64 ∧
    s.brk + pageBytes c (reqSizeFor size) < 2 ^ 64

theorem reqSizeFor_spec (h : size + 15 < 2 ^ 64) :
    8 ∣ reqSizeFor size ∧ 32 ≤ reqSizeFor size ∧ size + 8 ≤ reqSizeFor size := by
  rw [reqSizeFor, WORD_SIZE, MIN_BLOCK_SIZE, ALIGNMENT, wadd_eq (by omega)]
  by_cases hsmall : size + 8 ≤ 32
  · rw [if_pos hsmall]
    omega
  · rw [if_neg hsmall, wsub_wadd_one (by omega) (by omega), wmul_eq (by omega)]
    omega

/-- What an allocation does: a block that was not in use is, and the payloads of the
others are as they were. -/
def Allocated (c : Config) (s : Heap) (U : ℕ → ℕ → Prop) (size r : ℕ) (t : Heap) : Prop :=
  ∃ b z, r = b + 8 ∧ size + 8 ≤ z ∧ (∀ w, ¬ U b w) ∧
    Resting c t (fun p w => U p w ∨ (p = b ∧ w = z)) ∧ Keeps U s.bytes t.bytes

/-- An allocation whose sums do not wrap, as far as they are computed. -/
theorem runs_mmMalloc_of_fits (h : Resting c s U) (hsize : size ≠ 0) (hhead : size + 15 < 2 ^ 64)
    (hwrap : MustGrow c s (reqSizeFor size) → GrowthFits c s (reqSizeFor size)) :
    Runs (mmMalloc c size) s
      (fun r t => Allocated c s U size r t ∧ (Coalesced c s → Coalesced c t)) := by
  obtain ⟨bs, fl, hrep, hc, hU⟩ := h
  obtain ⟨hdvd, hmin, hreq⟩ := reqSizeFor_spec hhead
  rw [mmMalloc, if_neg hsize]
  dsimp only
  refine (runs_obtainFreeBlock hrep hc hmin hwrap).bind ?_
  rintro b t₁ ⟨bs₁, fl₁, z, hset, hapart, hz, hle⟩
  obtain ⟨pre, post, rfl, hb⟩ := exists_split_of_mem_placed hz
  change b = groupStart c pre at hb
  subst hb
  obtain ⟨hhead, hzdvd, hzmin, hend, -⟩ := hset.rep.middle
  have hrange := groupStart_range hset.rep
  have hlt := hset.rep.brk_lt
  dsimp only at hhead hzdvd hzmin hend
  apply runs_load hrange
  apply runs_load hrange
  rw [hhead, tagged_land_preceding hzdvd, SIZE_tagged hzdvd (by omega)]
  refine (runs_drop hset.rep hz (hset.complete _ _ hz)).bind ?_
  rintro _ t₂ ⟨fl₂, hdrop⟩
  have hcons : pre ++ ⟨z, false⟩ :: post = pre ++ [⟨z, false⟩] ++ post := by simp
  -- what follows a free block is in use, so the rest of a split has no free neighbour
  have hnext : NoAdjacentFree bs → headUsed post = true := fun hbs => (hapart hbs).headUsed_after
  rw [hcons] at hset hz hdrop hapart
  have hl : ListsOutside c pre [⟨z, false⟩] post fl₂ := by
    intro q
    rw [hdrop.mem, span_cons, span_nil, Nat.add_zero]
    exact and_congr_left fun _ => ⟨hset.rep.free q, fun ⟨w, hw⟩ => hset.complete q w hw⟩
  have hfree : ∀ g ∈ [(⟨z, false⟩ : Block)], g.used = false := by simp
  -- the used blocks are the old ones and the front of this block
  have hused : ∀ n p w, SplitKeeps c pre post z n false p w ↔
      U p w ∨ (p = groupStart c pre ∧ w = n) := by
    intro n p w
    rw [SplitKeeps, ← hU p w, ← hset.used p w]
    apply or_congr_left
    constructor
    · exact fun hp => hp.1
    · intro hp
      exact ⟨hp, by simpa using hset.rep.usedAt_outside hfree hp⟩
  have hfresh : ∀ w, ¬ U (groupStart c pre) w := by
    intro w hw
    rw [← hU, ← hset.used] at hw
    have := hset.rep.usedAt_outside hfree hw
    rw [span_cons, span_nil] at this
    dsimp only at this
    omega
  have hkeep : ∀ n m, Keeps (SplitKeeps c pre post z n false) t₂.bytes m → Keeps U s.bytes m := by
    intro n m hm
    have hold : Keeps (UsedAt c bs) s.bytes t₂.bytes :=
      hset.keeps.trans (hdrop.keeps.mono fun p w hp => (hset.used p w).mpr hp)
    refine (hold.mono fun p w hp => (hU p w).mpr hp).trans (hm.mono fun p w hp => ?_)
    exact (hused n p w).mpr (Or.inl hp)
  rw [wsub_eq hle (by omega), wadd_eq (by rw [WORD_SIZE]; omega), wadd_eq (by omega)]
  split_ifs with hcut
  · change z - reqSizeFor size ≥ 32 at hcut
    refine (runs_splitFree hdrop.rep hdvd hmin (by omega) hl).bind fun _ t ht => runs_pure ?_
    refine ⟨⟨_, _, rfl, hreq, hfresh, ht.1.resting.congr (hused _), hkeep _ _ ht.2⟩, fun hs => ?_⟩
    have hbs := hrep.coalesced_iff.mp hs
    exact ht.1.coalesced ((hapart hbs).cut (hnext hbs))
  · have hrun := (runs_useWhole hdrop.rep hl).bind
      (R := fun r t => Allocated c s U size r t ∧ (Coalesced c s → Coalesced c t))
      (f := fun _ => pure (groupStart c pre + WORD_SIZE)) fun _ t ht =>
        ⟨⟨_, _, rfl, hreq.trans hle, hfresh, ht.1.resting.congr (hused _), hkeep _ _ ht.2⟩,
          fun hs => ht.1.coalesced (hapart (hrep.coalesced_iff.mp hs)).use⟩
    simpa only [bind_assoc] using hrun

theorem runs_mmMalloc (h : Resting c s U) (hsize : size ≠ 0) (hwrap : NoWrap c s size) :
    Runs (mmMalloc c size) s
      (fun r t => Allocated c s U size r t ∧ (Coalesced c s → Coalesced c t)) :=
  runs_mmMalloc_of_fits h hsize hwrap.1 fun _ => hwrap.2

/-! ## Release -/

/-- The memory with the block of `z` bytes at `a` marked free, and `v` in the word
after it. -/
def markFreed (m : Mem) (a z v : ℕ) (preceding : Bool) : Mem :=
  setWord (setWord (setWord m (a + z) v) a (tagged z preceding false)) (a + (z - 8))
    (tagged z preceding false)

/-- A used block becomes a free one that is not yet on the list. -/
theorem HeapRep.release (h : HeapRep c s (pre ++ [⟨z, true⟩] ++ post) fl)
    (hl : ListsOutside c pre [⟨z, true⟩] post fl) {size : ℕ} {used : Bool}
    (hword : word s.bytes (groupStart c pre + z) = tagged size true used) :
    HeapRep c ⟨markFreed s.bytes (groupStart c pre) z (tagged size false used) (lastUsed true pre),
      s.brk⟩ (pre ++ [⟨z, false⟩] ++ post) fl := by
  have h' : HeapRep c s (pre ++ ⟨z, true⟩ :: post) fl := by simpa using h
  obtain ⟨-, hzdvd, hzmin, hend, -⟩ := h'.middle
  have hlt := h.brk_lt
  dsimp only at hzdvd hzmin hend
  have hspan : span [(⟨z, true⟩ : Block)] = z := by simp
  have htag : tagged z (lastUsed true pre) false < 2 ^ 64 := by
    have := tagged_bits_lt (lastUsed true pre) false
    rw [tagged]
    omega
  have htag' : tagged size false used < 2 ^ 64 := by
    have := word_lt s.bytes (groupStart c pre + z)
    rw [hword, tagged, Bool.toNat_true] at this
    rw [tagged, Bool.toNat_false]
    omega
  have hhead : word (markFreed s.bytes (groupStart c pre) z (tagged size false used)
      (lastUsed true pre)) (groupStart c pre) = tagged z (lastUsed true pre) false := by
    rw [markFreed, word_setWord_of_disjoint (by omega), word_setWord_self htag]
  have htail : SIZE (word (markFreed s.bytes (groupStart c pre) z (tagged size false used)
      (lastUsed true pre)) (groupStart c pre + z - 8)) = z := by
    rw [markFreed, Nat.add_sub_assoc (by omega), word_setWord_self htag,
      SIZE_tagged hzdvd (by omega)]
  have hnext : word (markFreed s.bytes (groupStart c pre) z (tagged size false used)
      (lastUsed true pre)) (groupStart c pre + z) = tagged size false used := by
    rw [markFreed, word_setWord_of_disjoint (by omega), word_setWord_of_disjoint (by omega),
      word_setWord_self htag']
  apply h.retile (by rfl)
  · intro x hx
    rw [hspan] at hx
    rw [markFreed, setWord_outside (by omega), setWord_outside (by omega),
      setWord_outside (by omega)]
  · exact ⟨hzdvd, hzmin, hhead, fun _ => htail, trivial⟩
  · rw [hspan, hnext, hword]
    simp only [lastUsed, tagged, Bool.toNat_true, Bool.toNat_false]
    omega
  · exact fun p hp => ((hl p).mp hp).2

/-- What a release does: the block is no longer in use, and the payloads of the
others are as they were. -/
def Released (c : Config) (s : Heap) (U : ℕ → ℕ → Prop) (b : ℕ) (t : Heap) : Prop :=
  Resting c t (fun p w => U p w ∧ p ≠ b) ∧ Keeps (fun p w => U p w ∧ p ≠ b) s.bytes t.bytes

theorem runs_mmFree (h : Resting c s U) {b z : ℕ} (hb : U b z) :
    Runs (mmFree c (b + 8)) s
      (fun _ t => Released c s U b t ∧ (Coalesced c s → Coalesced c t)) := by
  obtain ⟨bs, fl, hrep, hc, hU⟩ := h
  have hz := (hU b z).mpr hb
  obtain ⟨pre, post, rfl, hgs⟩ := exists_split_of_mem_placed hz
  change b = groupStart c pre at hgs
  subst hgs
  obtain ⟨hhead, hzdvd, hzmin, hend, -⟩ := hrep.middle
  have hrange := groupStart_range hrep
  have hlt := hrep.brk_lt
  have hcons : ∀ u, pre ++ ⟨z, u⟩ :: post = pre ++ [⟨z, u⟩] ++ post := by simp
  have hspan : span [(⟨z, true⟩ : Block)] = z := by simp
  dsimp only at hhead hzdvd hzmin hend
  rw [hcons] at hrep hc hU hz
  obtain ⟨size, used, hword, hsize, hslt, -, -⟩ := hrep.after
  have hl := hrep.listsOutside hc
  have hfreed := hrep.release hl hword
  have htag : tagged z (lastUsed true pre) false < 2 ^ 64 := by
    have := tagged_bits_lt (lastUsed true pre) false
    rw [tagged]
    omega
  rw [mmFree, wsub_eq (by rw [WORD_SIZE]; omega) (by omega), WORD_SIZE, Nat.add_sub_cancel]
  apply runs_load hrange
  dsimp only
  rw [hhead, SIZE_tagged hzdvd (by omega), wadd_eq (by omega),
    wsub_eq (by omega) (by omega), wadd_eq (by omega)]
  apply runs_load (by omega)
  rw [hword, tagged_land_not_preceding hsize (by omega)]
  apply runs_store (by omega)
  apply runs_load (by exact hrange)
  dsimp only
  rw [word_setWord_of_disjoint (by omega), hhead, tagged_land_not_used hzdvd (by omega)]
  apply runs_store (by exact hrange)
  apply runs_load (by exact hrange)
  dsimp only
  rw [word_setWord_self htag]
  apply runs_store (by dsimp only; omega)
  have hnew : FreeAt c (pre ++ [⟨z, false⟩] ++ post) (groupStart c pre) z := by
    rw [← hcons]
    exact freeAt_middle
  have hnot : groupStart c pre ∉ fl := by
    intro hp
    have := hrep.apart_block hl hp
    omega
  refine (hfreed.runs_insertFreeBlock hnot ⟨z, hnew⟩).bind ?_
  rintro _ t₁ ⟨hrep₁, -, hlist⟩
  have hcomplete : Complete c (pre ++ [⟨z, false⟩] ++ post) (groupStart c pre :: fl) := by
    apply HeapRep.complete_retile hl hrep₁ rfl (List.subset_cons_self _ _)
    intro p w hp
    rw [placed, placed, List.mem_singleton, Prod.mk.injEq] at hp
    rw [hp.1]
    exact List.mem_cons_self
  have hused : ∀ p w, UsedAt c (pre ++ [⟨z, false⟩] ++ post) p w ↔
      U p w ∧ p ≠ groupStart c pre := by
    intro p w
    rw [hrep.usedAt_retile hfreed rfl, hspan, hU]
    constructor
    · rintro (⟨hp, hout⟩ | hp)
      · exact ⟨hp, by omega⟩
      · simp [placed] at hp
    · rintro ⟨hp, hne⟩
      exact Or.inl ⟨hp, hrep.outside_of_ne ((hU p w).mpr hp) hne⟩
  have hkeep₁ : Keeps (fun p w => U p w ∧ p ≠ groupStart c pre) s.bytes
      (markFreed s.bytes (groupStart c pre) z (tagged size false used) (lastUsed true pre)) := by
    refine (hrep.keeps_outside fun x hx => ?_).mono fun p w hp => ?_
    · rw [hspan] at hx
      rw [markFreed, setWord_outside (by omega), setWord_outside (by omega),
        setWord_outside (by omega)]
    · have hpu := (hU p w).mpr hp.1
      exact ⟨hpu, by rw [hspan]; exact hrep.outside_of_ne hpu hp.2⟩
  have hkeep₂ := hfreed.keeps_list hlist hrep₁.free
  rw [← hcons] at hrep₁ hcomplete
  refine (runs_coalesceFreeBlock hrep₁ hcomplete).mono ?_
  rintro _ t ⟨bs', fl', hset, hapart, -⟩
  rw [hcons] at hset
  refine ⟨⟨⟨bs', fl', hset.rep, hset.complete, fun p w => (hset.used p w).trans (hused p w)⟩, ?_⟩,
    fun hs => ?_⟩
  · refine hkeep₁.trans ?_
    exact (hkeep₂.trans hset.keeps).mono fun p w hp => (hused p w).mpr hp
  · have hbs := hrep.coalesced_iff.mp hs
    rw [List.append_assoc, List.singleton_append, noAdjacentFree_append, noAdjacentFree_cons] at hbs
    exact hset.rep.coalesced_iff.mpr (hapart hbs.1 hbs.2.1.1)

/-! ## Start -/

/-- The memory after `mm_init`. -/
def markInit (c : Config) (m : Mem) : Mem :=
  setWord (setWord (setWord (setWord (setWord (setWord m c.firstBlock (tagged 32 true false))
    (c.firstBlock + 8) 0) (c.firstBlock + 16) 0) (c.firstBlock + 24) (tagged 32 true false))
      (c.firstBlock + 32) TAG_USED) c.heapLo c.firstBlock

theorem heapRep_markInit (m : Mem) :
    HeapRep c ⟨markInit c m, c.heapLo + 48⟩ [⟨32, false⟩] [c.firstBlock] := by
  have hfirst : c.firstBlock = c.heapLo + 8 := rfl
  have hmax := c.maxAddr_eq
  have hlt := c.maxAddr_lt
  rw [MAX_HEAP] at hmax
  have htag : tagged 32 true false < 2 ^ 64 := by decide
  have hused : TAG_USED < 2 ^ 64 := by decide
  have hstart : c.firstBlock < 2 ^ 64 := by omega
  have hwords : word (markInit c m) c.firstBlock = tagged 32 true false ∧
      word (markInit c m) (c.firstBlock + 24) = tagged 32 true false ∧
      word (markInit c m) (c.firstBlock + 32) = TAG_USED ∧
      word (markInit c m) (c.firstBlock + 8) = 0 ∧
      word (markInit c m) (c.firstBlock + 16) = 0 ∧
      word (markInit c m) c.heapLo = c.firstBlock := by
    rw [markInit]
    refine ⟨?_, ?_, ?_, ?_, ?_, ?_⟩ <;>
      simp (disch := omega) only [word_setWord_of_disjoint, word_setWord_self]
  obtain ⟨hhead, htail, hfooter, hnext, hprev, hlist⟩ := hwords
  refine ⟨⟨by decide, le_rfl, hhead, fun _ => ?_, trivial⟩, hfooter, ?_, ?_,
    ⟨hlist, 0, hnext, hprev, trivial⟩, List.nodup_singleton _, ?_⟩
  · exact (congrArg SIZE htail).trans (by decide)
  · rw [span_cons, span_nil]
    dsimp only
    omega
  · dsimp only
    omega
  · intro p hp
    rw [List.mem_singleton.mp hp]
    exact ⟨32, List.mem_cons_self⟩

/-- `mm_init` makes a heap of one free block, whatever the memory holds. -/
theorem runs_mmInit (m : Mem) :
    Runs (mmInit c) ⟨m, c.heapLo⟩
      (fun _ t => Resting c t (fun _ _ => False) ∧ Coalesced c t) := by
  have hfirst : c.firstBlock = c.heapLo + 8 := rfl
  have hmax := c.maxAddr_eq
  have hlt := c.maxAddr_lt
  rw [MAX_HEAP] at hmax
  have hsbrk : memSbrk c (WORD_SIZE + MIN_BLOCK_SIZE + WORD_SIZE) ⟨m, c.heapLo⟩ =
      .ok (some c.heapLo, ⟨m, c.heapLo + 48⟩) := by
    rw [memSbrk, WORD_SIZE, MIN_BLOCK_SIZE, wadd_eq (by dsimp only; omega)]
    exact if_neg (by dsimp only; omega)
  have htag : 32 ||| TAG_PRECEDING_USED = tagged 32 true false := by decide
  rw [mmInit]
  refine Runs.bind (P := fun r t => r = some c.heapLo ∧ t = ⟨m, c.heapLo + 48⟩) ?_ ?_
  · rw [Runs, hsbrk]
    exact ⟨rfl, rfl⟩
  · rintro _ _ ⟨rfl, rfl⟩
    have hstart : wadd c.heapLo WORD_SIZE = c.firstBlock := wadd_eq (by rw [WORD_SIZE]; omega)
    have hnext : nextField c.firstBlock = c.firstBlock + 8 := wadd_eq (by omega)
    have hprev : prevField c.firstBlock = c.firstBlock + 16 := wadd_eq (by omega)
    dsimp only
    rw [hstart, hnext, hprev, WORD_SIZE, MIN_BLOCK_SIZE, Nat.add_sub_cancel,
      Nat.add_sub_cancel_left, htag, wadd_eq (by omega)]
    apply runs_store (by dsimp only; omega)
    apply runs_store (by dsimp only; omega)
    apply runs_store (by dsimp only; omega)
    apply runs_store (by dsimp only; omega)
    apply runs_get
    dsimp only
    have hhi : wsub (wsub (c.heapLo + 48) 1) (8 - 1) = c.firstBlock + 32 := by
      rw [wsub_eq (a := c.heapLo + 48) (by omega) (by omega), wsub_eq (by omega) (by omega)]
      omega
    rw [hhi]
    apply runs_store (by dsimp only; omega)
    apply runs_store_last (by dsimp only; omega)
    have hrep := heapRep_markInit (c := c) m
    refine ⟨⟨[⟨32, false⟩], [c.firstBlock], hrep, ?_, fun p z => ?_⟩,
      hrep.coalesced_iff.mpr (List.isChain_singleton _)⟩
    · intro p z hp
      simp only [FreeAt, placed, List.mem_singleton, Prod.mk.injEq] at hp
      exact List.mem_singleton.mpr hp.1
    · simp [UsedAt, placed]

end Courses.MallocLab

/-!
# A consistent heap

What the allocator's comments ask of the heap, word by word, without the model's own
notion of tiling. Every heap between two calls is consistent.
-/
namespace Courses.MallocLab

open Courses.Lib

/-- The heap `h` consists of the blocks `bs`, and its free list runs through `fl`. -/
structure Consistent (c : Config) (h : Heap) (bs : List Block) (fl : List ℕ) : Prop where
  /-- The blocks lie end to end from the second word to the last. -/
  tiled : c.heapLo + 8 + span bs + 8 = h.brk
  size : ∀ p b, (p, b) ∈ placed (c.heapLo + 8) bs →
    SIZE (word h.bytes p) = b.size ∧ 8 ∣ b.size ∧ MIN_BLOCK_SIZE ≤ b.size
  used : ∀ p b, (p, b) ∈ placed (c.heapLo + 8) bs →
    word h.bytes p &&& TAG_USED = b.used.toNat
  /-- The last word of the heap has size zero and counts as used. -/
  footer : SIZE (word h.bytes (h.brk - 8)) = 0 ∧ word h.bytes (h.brk - 8) &&& TAG_USED = 1
  /-- The word after a block, a header or the last word, repeats whether it is used. -/
  preceding : ∀ p b, (p, b) ∈ placed (c.heapLo + 8) bs →
    word h.bytes (p + b.size) &&& TAG_PRECEDING_USED = 2 * (word h.bytes p &&& TAG_USED)
  boundary : ∀ p b, (p, b) ∈ placed (c.heapLo + 8) bs → b.used = false →
    SIZE (word h.bytes (p + b.size - 8)) = SIZE (word h.bytes p)
  head : word h.bytes c.heapLo = fl.headD 0
  next : ∀ xs p ys, fl = xs ++ p :: ys → word h.bytes (p + 8) = ys.headD 0
  prev : ∀ xs p q ys, fl = xs ++ p :: q :: ys → word h.bytes (q + 16) = p
  acyclic : fl.Nodup
  free : ∀ p, p ∈ fl ↔ ∃ b, (p, b) ∈ placed (c.heapLo + 8) bs ∧ b.used = false
  nonnull : 0 ∉ fl

variable {c : Config} {s : Heap} {bs : List Block} {fl : List ℕ} {p : ℕ} {b : Block}

theorem HeapRep.header (h : HeapRep c s bs fl) (hp : (p, b) ∈ placed c.firstBlock bs) :
    ∃ preceding, word s.bytes p = tagged b.size preceding b.used ∧ 8 ∣ b.size ∧
      32 ≤ b.size ∧ b.size < 2 ^ 64 - 8 := by
  obtain ⟨pre, post, rfl, rfl⟩ := exists_split_of_mem_placed hp
  obtain ⟨hhead, hdvd, hmin, hend, -⟩ := h.middle
  have := h.brk_lt
  exact ⟨_, hhead, hdvd, hmin, by omega⟩

theorem HeapRep.consistent (h : HeapRep c s bs fl) (hc : Complete c bs fl) :
    Consistent c s bs fl := by
  have hbrk := h.brk
  have hend : s.brk - 8 = c.firstBlock + span bs := by omega
  have hfooter := h.footer
  obtain ⟨hhead, b₀, hseg⟩ := h.list
  refine ⟨hbrk, ?_, ?_, ?_, ?_, ?_, hhead, ?_, ?_, h.nodup, ?_, ?_⟩
  · intro p b hp
    obtain ⟨preceding, hword, hdvd, hmin, hlt⟩ := h.header hp
    exact ⟨(congrArg SIZE hword).trans (SIZE_tagged hdvd hlt), hdvd, hmin⟩
  · intro p b hp
    obtain ⟨preceding, hword, hdvd, -, -⟩ := h.header hp
    rw [hword, tagged_land_used hdvd]
  · rw [hend, hfooter, SIZE_tagged (dvd_zero 8) (by decide), tagged_land_used (dvd_zero 8)]
    exact ⟨rfl, rfl⟩
  · intro p b hp
    obtain ⟨preceding, hword, hdvd, -, -⟩ := h.header hp
    obtain ⟨pre, post, rfl, rfl⟩ := exists_split_of_mem_placed hp
    have h' : HeapRep c s (pre ++ [⟨b.size, b.used⟩] ++ post) fl := by simpa using h
    obtain ⟨size, used, hnext, hsize, -⟩ := h'.after
    rw [hword, tagged_land_used hdvd]
    change word s.bytes (groupStart c pre + b.size) &&& _ = _
    rw [hnext, tagged_land_preceding hsize]
  · intro p b hp hb
    obtain ⟨preceding, hword, hdvd, -, hlt⟩ := h.header hp
    obtain ⟨pre, post, rfl, rfl⟩ := exists_split_of_mem_placed hp
    rw [hword, SIZE_tagged hdvd hlt]
    exact h.middle.2.2.2.2 hb
  · rintro xs p ys rfl
    exact ((segment_middle b₀ xs ys p 0).mp hseg).2.1
  · rintro xs p q ys rfl
    exact ((segment_middle b₀ xs (q :: ys) p 0).mp hseg).2.2.2.2.1
  · intro p
    constructor
    · intro hp
      obtain ⟨z, hz⟩ := h.free p hp
      exact ⟨_, hz, rfl⟩
    · rintro ⟨⟨z, u⟩, hp, hu⟩
      cases hu
      exact hc p z hp
  · intro hzero
    have := (h.bounds hzero).1
    have := c.heapLo_pos
    rw [Config.firstBlock] at *
    omega

end Courses.MallocLab
