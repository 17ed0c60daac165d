import Courses.MallocLab.Retile

/-!
# Coalescing

The two loops of `coalesceFreeBlock` take the free neighbours of a block off the
list, first backwards over the boundary tags, then forwards over the headers. What
is left is a group of adjacent free blocks that are on no list; it becomes one.
-/
namespace Courses.MallocLab

open Courses.Lib

variable {c : Config} {s t : Heap} {bs pre post : List Block} {fl fl' : List ℕ} {p : ℕ}

/-- The state after the blocks that start in `[lo, hi)` have been taken off the list. -/
structure Dropped (c : Config) (s : Heap) (bs : List Block) (fl : List ℕ) (lo hi : ℕ)
    (fl' : List ℕ) (t : Heap) : Prop where
  rep : HeapRep c t bs fl'
  mem : ∀ q, q ∈ fl' ↔ q ∈ fl ∧ (q < lo ∨ hi ≤ q)
  brk : t.brk = s.brk
  keeps : Keeps (UsedAt c bs) s.bytes t.bytes

theorem Dropped.refl (h : HeapRep c s bs fl) {a : ℕ} : Dropped c s bs fl a a fl s :=
  ⟨h, fun q => ⟨fun hq => ⟨hq, by omega⟩, fun hq => hq.1⟩, rfl, Keeps.refl _ _⟩

theorem Dropped.trans {u : Heap} {fl₁ fl₂ : List ℕ} {a b a' b' lo hi : ℕ}
    (h : Dropped c s bs fl a b fl₁ t) (h' : Dropped c t bs fl₁ a' b' fl₂ u)
    (hunion : ∀ q, ((q < a ∨ b ≤ q) ∧ (q < a' ∨ b' ≤ q)) ↔ (q < lo ∨ hi ≤ q)) :
    Dropped c s bs fl lo hi fl₂ u := by
  refine ⟨h'.rep, fun q => ?_, h'.brk.trans h.brk, h.keeps.trans h'.keeps⟩
  rw [h'.mem, h.mem, and_assoc, hunion]

/-- A free block taken off the list. -/
theorem runs_drop {z : ℕ} (h : HeapRep c s bs fl) (hz : FreeAt c bs p z) (hp : p ∈ fl) :
    Runs (removeFreeBlock c p) s (fun _ t => ∃ fl', Dropped c s bs fl p (p + z) fl' t) := by
  obtain ⟨xs, ys, rfl⟩ := List.append_of_mem hp
  refine h.runs_removeFreeBlock.mono fun _ t hrem => ⟨xs ++ ys, hrem.1, fun q => ?_, hrem.2.1, ?_⟩
  · have hside : q ∈ xs ++ ys ↔ q ∈ xs ++ p :: ys ∧ q ≠ p := by
      have hleft := h.not_mem_left
      have hright := h.not_mem_right
      simp only [List.mem_append, List.mem_cons]
      constructor
      · rintro (hq | hq)
        · exact ⟨Or.inl hq, fun heq => hleft (heq ▸ hq)⟩
        · exact ⟨Or.inr (Or.inr hq), fun heq => hright (heq ▸ hq)⟩
      · rintro ⟨hq | hq | hq, hne⟩
        · exact Or.inl hq
        · exact absurd hq hne
        · exact Or.inr hq
    rw [hside]
    constructor
    · rintro ⟨hq, hne⟩
      obtain ⟨w, hw⟩ := h.free q hq
      have hsize := h.placed_pos hw
      have := placed_apart hw hz
      dsimp only at hsize this
      exact ⟨hq, by omega⟩
    · rintro ⟨hq, hout⟩
      have hsize := h.placed_pos hz
      dsimp only at hsize
      exact ⟨hq, by omega⟩
  · exact h.keeps_list hrem.2.2 h.free

/-- Some facts about a block in the middle of the heap. -/
theorem HeapRep.middle {b : Block} (h : HeapRep c s (pre ++ b :: post) fl) :
    word s.bytes (groupStart c pre) = tagged b.size (lastUsed true pre) b.used ∧
      8 ∣ b.size ∧ 32 ≤ b.size ∧ groupStart c pre + b.size + 8 ≤ s.brk ∧
        (b.used = false → SIZE (word s.bytes (groupStart c pre + b.size - 8)) = b.size) := by
  have hbrk := h.brk
  obtain ⟨-, hdvd, hmin, hhead, htail, -⟩ := (tiles_append _ _ _ _).mp h.tiles
  rw [span_append, span_cons] at hbrk
  refine ⟨hhead, hdvd, hmin, ?_, htail⟩
  rw [groupStart]
  omega

/-- The word after a sequence of blocks: the next header, or the last word of the
heap. Its preceding bit tells whether the last of them is in use. -/
theorem HeapRep.following (h : HeapRep c s (pre ++ post) fl) :
    ∃ size used, word s.bytes (groupStart c pre) = tagged size (lastUsed true pre) used ∧
      8 ∣ size ∧ size < 2 ^ 64 - 8 ∧ groupStart c pre + 8 ≤ s.brk ∧
        (used = false → ∃ d ds, post = d :: ds ∧ d = Block.mk size false) ∧
          headUsed post = used := by
  cases post with
  | nil =>
    have hfooter := h.footer
    have hbrk := h.brk
    rw [List.append_nil] at hfooter hbrk
    refine ⟨0, true, hfooter, dvd_zero 8, by decide, ?_, fun hu => Bool.noConfusion hu, rfl⟩
    rw [groupStart]
    omega
  | cons d ds =>
    obtain ⟨hhead, hdvd, hmin, hend, -⟩ := h.middle
    have := h.brk_lt
    refine ⟨d.size, d.used, hhead, hdvd, by omega, by omega, fun hu => ⟨d, ds, rfl, ?_⟩, rfl⟩
    rw [← hu]

theorem groupStart_append (pre grp : List Block) :
    groupStart c (pre ++ grp) = groupStart c pre + span grp := by
  rw [groupStart, groupStart, span_append, Nat.add_assoc]

theorem freeAt_middle {z : ℕ} : FreeAt c (pre ++ Block.mk z false :: post) (groupStart c pre) z :=
  mem_placed_middle _ _ _ _

theorem groupStart_range (h : HeapRep c s (pre ++ post) fl) :
    c.heapLo ≤ groupStart c pre ∧ groupStart c pre + 8 ≤ s.brk := by
  have := h.brk
  rw [span_append] at this
  rw [groupStart]
  rw [Config.firstBlock] at this ⊢
  omega

/-- The backward loop stops where the block before the cursor is in use. -/
theorem runs_coalescePreceding_stop {b : Block} (h : HeapRep c s (pre ++ b :: post) fl)
    (hlast : lastUsed true pre = true) (newSize fuel : ℕ) :
    Runs (coalescePreceding c (fuel + 1) (groupStart c pre) newSize) s
      (fun r t => r = (groupStart c pre, newSize) ∧ t = s) := by
  obtain ⟨hhead, hdvd, -⟩ := h.middle
  rw [coalescePreceding]
  apply runs_load (groupStart_range h)
  rw [hhead, tagged_land_preceding hdvd, hlast, if_neg (by decide)]
  exact runs_pure ⟨rfl, rfl⟩

/-- The backward loop gathers the free blocks `grp` just before the cursor. -/
theorem runs_coalescePreceding {b : Block} (pre post : List Block) {fl : List ℕ} {s : Heap}
    (h : HeapRep c s (pre ++ b :: post) fl) (hfree : ∀ p z, FreeAt c pre p z → p ∈ fl)
    {newSize : ℕ} (hsize : newSize + span pre < 2 ^ 64) {fuel : ℕ} (hfuel : pre.length < fuel) :
    Runs (coalescePreceding c fuel (groupStart c pre) newSize) s (fun r t =>
      ∃ pre' grp fl', pre = pre' ++ grp ∧ (∀ g ∈ grp, g.used = false) ∧
        lastUsed true pre' = true ∧ r = (groupStart c pre', newSize + span grp) ∧
          Dropped c s (pre ++ b :: post) fl (groupStart c pre') (groupStart c pre) fl' t) := by
  induction pre using List.reverseRecOn generalizing b post fl s newSize fuel with
  | nil =>
    obtain _ | fuel := fuel
    · exact absurd hfuel (Nat.not_lt_zero _)
    · refine (runs_coalescePreceding_stop h rfl _ _).mono ?_
      rintro _ _ ⟨rfl, rfl⟩
      exact ⟨[], [], fl, rfl, by simp, rfl, rfl, Dropped.refl h⟩
  | append_singleton pre g ih =>
    obtain _ | fuel := fuel
    · exact absurd hfuel (Nat.not_lt_zero _)
    obtain ⟨gsize, gused⟩ := g
    have hstart : groupStart c (pre ++ [⟨gsize, gused⟩]) = groupStart c pre + gsize := by
      rw [groupStart_append, span_cons, span_nil, Nat.add_zero]
    cases gused with
    | true =>
      refine (runs_coalescePreceding_stop h (lastUsed_concat _ _ _) _ _).mono ?_
      rintro _ _ ⟨rfl, rfl⟩
      exact ⟨_, [], fl, (List.append_nil _).symm, by simp, lastUsed_concat _ _ _, rfl,
        Dropped.refl h⟩
    | false =>
      have h' : HeapRep c s (pre ++ Block.mk gsize false :: b :: post) fl := by simpa using h
      obtain ⟨hhead, hdvd, -⟩ := h.middle
      obtain ⟨-, hgdvd, hgmin, hgend, hgtail⟩ := h'.middle
      have hrange := groupStart_range h
      have hlo := groupStart_range h'
      have hbrk := h.brk_lt
      have hgfree : FreeAt c (pre ++ Block.mk gsize false :: b :: post) (groupStart c pre) gsize :=
        freeAt_middle
      have hgmem : groupStart c pre ∈ fl := hfree _ gsize freeAt_middle
      rw [span_append, span_cons, span_nil] at hsize
      rw [hstart] at hhead hrange ⊢
      dsimp only at hgmin hgend hgtail hsize
      have hbit : word s.bytes (groupStart c pre + gsize) &&& TAG_PRECEDING_USED = 0 := by
        rw [hhead, tagged_land_preceding hdvd, lastUsed_concat]
        rfl
      have htag : wsub (groupStart c pre + gsize) WORD_SIZE = groupStart c pre + gsize - 8 :=
        wsub_eq (by rw [WORD_SIZE]; omega) (by omega)
      rw [coalescePreceding]
      apply runs_load hrange
      rw [if_pos hbit, htag]
      apply runs_load (by omega)
      dsimp only
      rw [hgtail rfl, wsub_eq (by omega) (by omega), Nat.add_sub_cancel, wadd_eq (by omega)]
      refine (runs_drop h' hgfree hgmem).bind ?_
      rintro _ t ⟨fl₁, hdrop⟩
      have hfree' : ∀ p z, FreeAt c pre p z → p ∈ fl₁ := by
        intro p z hp
        rw [hdrop.mem]
        have hb := placed_bounds hp
        have hin : FreeAt c (pre ++ [Block.mk gsize false]) p z := by
          rw [FreeAt, placed_append]
          exact List.mem_append_left _ hp
        have hpos : 32 ≤ z := h'.placed_pos (b := ⟨z, false⟩) (by
          rw [placed_append]
          exact List.mem_append_left _ hp)
        refine ⟨hfree p z hin, Or.inl ?_⟩
        rw [groupStart]
        dsimp only at hb
        omega
      refine (ih _ hdrop.rep hfree' (by omega) (Nat.lt_of_succ_lt_succ (by simpa using hfuel))).mono
        ?_
      rintro _ u ⟨pre', grp, fl', rfl, hgrp, hlast, rfl, hdrop'⟩
      refine ⟨pre', grp ++ [⟨gsize, false⟩], fl', by simp, ?_, hlast, ?_, ?_⟩
      · intro d hd
        rcases List.mem_append.mp hd with hd | hd
        · exact hgrp d hd
        · rw [List.mem_singleton.mp hd]
      · rw [span_append, span_cons, span_nil]
        simp only [Prod.mk.injEq, true_and]
        omega
      · have hle : groupStart c pre' ≤ groupStart c (pre' ++ grp) := by
          rw [groupStart_append]
          omega
        rw [List.append_assoc, List.singleton_append]
        exact hdrop.trans hdrop' (by intro q; omega)

/-- The forward loop stops at a used block, or at the last word of the heap, which is
tagged as one. -/
theorem runs_coalesceFollowing_stop {a size newSize : ℕ} {preceding : Bool}
    (hrange : c.heapLo ≤ a ∧ a + 8 ≤ s.brk) (hhead : word s.bytes a = tagged size preceding true)
    (hdvd : 8 ∣ size) (fuel : ℕ) :
    Runs (coalesceFollowing c (fuel + 1) a newSize) s (fun r t => r = (a, newSize) ∧ t = s) := by
  rw [coalesceFollowing]
  apply runs_load hrange
  rw [hhead, tagged_land_used hdvd, if_neg (by decide)]
  exact runs_pure ⟨rfl, rfl⟩

/-- The forward loop gathers the free blocks `grp` from the cursor on. -/
theorem runs_coalesceFollowing (rest pre : List Block) {fl : List ℕ} {s : Heap}
    (h : HeapRep c s (pre ++ rest) fl)
    (hfree : ∀ p z, FreeAt c (pre ++ rest) p z → groupStart c pre ≤ p → p ∈ fl)
    {newSize : ℕ} (hsize : newSize + span rest < 2 ^ 64) {fuel : ℕ} (hfuel : rest.length < fuel) :
    Runs (coalesceFollowing c fuel (groupStart c pre) newSize) s (fun r t =>
      ∃ grp post fl', rest = grp ++ post ∧ (∀ g ∈ grp, g.used = false) ∧ headUsed post = true ∧
        r = (groupStart c pre + span grp, newSize + span grp) ∧
          Dropped c s (pre ++ rest) fl (groupStart c pre) (groupStart c pre + span grp) fl' t) := by
  induction rest generalizing pre fl s newSize fuel with
  | nil =>
    obtain _ | fuel := fuel
    · exact absurd hfuel (Nat.not_lt_zero _)
    have hfooter := h.footer
    rw [List.append_nil] at hfooter
    refine (runs_coalesceFollowing_stop (groupStart_range h) hfooter (dvd_zero 8) _).mono ?_
    rintro _ _ ⟨rfl, rfl⟩
    exact ⟨[], [], fl, rfl, by simp, rfl, rfl, Dropped.refl h⟩
  | cons d ds ih =>
    obtain _ | fuel := fuel
    · exact absurd hfuel (Nat.not_lt_zero _)
    obtain ⟨dsize, dused⟩ := d
    obtain ⟨hhead, hdvd, hmin, hend, -⟩ := h.middle
    have hrange := groupStart_range h
    have hbrk := h.brk_lt
    rw [span_cons] at hsize
    dsimp only at hhead hdvd hmin hend hsize
    cases dused with
    | true =>
      refine (runs_coalesceFollowing_stop hrange hhead hdvd _).mono ?_
      rintro _ _ ⟨rfl, rfl⟩
      exact ⟨[], _, fl, rfl, by simp, rfl, rfl, Dropped.refl h⟩
    | false =>
      have hbit : word s.bytes (groupStart c pre) &&& TAG_USED = 0 := by
        rw [hhead, tagged_land_used hdvd]
        rfl
      have hdfree : FreeAt c (pre ++ Block.mk dsize false :: ds) (groupStart c pre) dsize :=
        freeAt_middle
      rw [coalesceFollowing]
      apply runs_load hrange
      rw [if_pos hbit]
      apply runs_load hrange
      dsimp only
      rw [hhead, SIZE_tagged hdvd (by omega), wadd_eq (by omega), wadd_eq (by omega)]
      refine (runs_drop h hdfree (hfree _ _ hdfree le_rfl)).bind ?_
      rintro _ t ⟨fl₁, hdrop⟩
      have hstart : groupStart c (pre ++ [Block.mk dsize false]) = groupStart c pre + dsize := by
        rw [groupStart_append, span_cons, span_nil, Nat.add_zero]
      have hrep : HeapRep c t ((pre ++ [Block.mk dsize false]) ++ ds) fl₁ := by
        simpa using hdrop.rep
      have hfree' : ∀ p z, FreeAt c ((pre ++ [Block.mk dsize false]) ++ ds) p z →
          groupStart c (pre ++ [Block.mk dsize false]) ≤ p → p ∈ fl₁ := by
        intro p z hp hle
        rw [List.append_assoc] at hp
        rw [hstart] at hle
        rw [hdrop.mem]
        exact ⟨hfree p z hp (by omega), Or.inr hle⟩
      have hsum : newSize + dsize + span ds < 2 ^ 64 := by omega
      have hrun := ih _ hrep hfree' hsum (Nat.lt_of_succ_lt_succ hfuel)
      rw [hstart] at hrun
      refine hrun.mono ?_
      rintro _ u ⟨grp, post, fl', rfl, hgrp, hhead', rfl, hdrop'⟩
      refine ⟨⟨dsize, false⟩ :: grp, post, fl', rfl, ?_, hhead', ?_, ?_⟩
      · intro g hg
        rcases List.mem_cons.mp hg with rfl | hg
        · rfl
        · exact hgrp g hg
      · rw [span_cons]
        simp only [Prod.mk.injEq]
        omega
      · rw [span_cons]
        rw [List.append_assoc] at hdrop'
        exact hdrop.trans hdrop' (by intro q; dsimp only; omega)

/-! ## The merged block -/

/-- The memory with a free block of `n` bytes marked out at `a`. -/
def markFree (m : Mem) (a n : ℕ) : Mem :=
  setWord (setWord m a (tagged n true false)) (a + n - 8) (tagged n true false)

/-- The sizes in a group of blocks. -/
theorem HeapRep.span_group {grp : List Block} (h : HeapRep c s (pre ++ grp ++ post) fl)
    (hne : grp ≠ []) : 8 ∣ span grp ∧ 32 ≤ span grp := by
  have htiles := ((tiles_append _ _ _ _).mp ((tiles_append _ _ _ _).mp h.tiles).1).2
  have hlength := htiles.length_le
  have hpos := List.length_pos_iff.mpr hne
  exact ⟨htiles.dvd_span, by omega⟩

/-- A group of free blocks that are on no list becomes one free block. -/
theorem HeapRep.merge {grp : List Block} (h : HeapRep c s (pre ++ grp ++ post) fl)
    (hne : grp ≠ []) (hfree : ∀ g ∈ grp, g.used = false) (hlast : lastUsed true pre = true)
    (hfl : ∀ p ∈ fl, p < groupStart c pre ∨ groupStart c pre + span grp ≤ p) :
    HeapRep c { s with bytes := markFree s.bytes (groupStart c pre) (span grp) }
      (pre ++ [⟨span grp, false⟩] ++ post) fl := by
  have hbrk := h.brk
  have hlt := h.brk_lt
  obtain ⟨hdvd, hmin⟩ := h.span_group hne
  rw [span_append, span_append] at hbrk
  have hstart : groupStart c pre = c.firstBlock + span pre := rfl
  have htag : tagged (span grp) true false < 2 ^ 64 := by
    rw [tagged]
    have := tagged_bits_lt true false
    omega
  have hgrp : lastUsed (lastUsed true pre) grp = false := by
    obtain ⟨zs, g, rfl⟩ := List.eq_nil_or_concat' grp |>.resolve_left hne
    rw [lastUsed_concat]
    exact hfree g (by simp)
  apply h.retile
  · simp
  · intro x hx
    rw [markFree, setWord_outside (by omega), setWord_outside (by omega)]
  · refine ⟨hdvd, hmin, ?_, fun _ => ?_, trivial⟩
    · rw [markFree, word_setWord_of_disjoint (by omega), word_setWord_self htag, hlast]
    · rw [markFree, word_setWord_self htag, SIZE_tagged hdvd (by omega)]
  · rw [markFree, word_setWord_of_disjoint (by omega), word_setWord_of_disjoint (by omega), hgrp]
    rfl
  · exact hfl

/-- A heap between two calls, reached from `s` without a change to any used block. -/
structure Settled (c : Config) (s : Heap) (bs : List Block) (t : Heap) (bs' : List Block)
    (fl' : List ℕ) : Prop where
  rep : HeapRep c t bs' fl'
  complete : Complete c bs' fl'
  used : ∀ p z, UsedAt c bs' p z ↔ UsedAt c bs p z
  keeps : Keeps (UsedAt c bs) s.bytes t.bytes

theorem mem_of_mem_placed {a : ℕ} {b : Block} (h : (p, b) ∈ placed a bs) : b ∈ bs := by
  obtain ⟨xs, ys, rfl, -⟩ := exists_split_of_mem_placed h
  simp

/-- With a group of free blocks, the used blocks are before it or after it. -/
theorem HeapRep.usedAt_outside {grp : List Block} (h : HeapRep c s (pre ++ grp ++ post) fl)
    (hfree : ∀ g ∈ grp, g.used = false) {z : ℕ} (hp : UsedAt c (pre ++ grp ++ post) p z) :
    p < groupStart c pre ∨ groupStart c pre + span grp ≤ p := by
  rcases (h.usedAt_retile h rfl p z).mp hp with hp | hp
  · exact hp.2
  · exact absurd (hfree _ (mem_of_mem_placed hp)) (by simp)

/-- A group of blocks that covers nothing is empty. -/
theorem HeapRep.group_eq_nil {grp : List Block} (h : HeapRep c s (pre ++ grp ++ post) fl)
    (hspan : span grp = 0) : grp = [] := by
  have hlen := ((tiles_append _ _ _ _).mp ((tiles_append _ _ _ _).mp h.tiles).1).2.length_le
  apply List.eq_nil_of_length_eq_zero
  omega

/-- The two list operations of a merge and its two stores, in one step. -/
theorem runs_mergeGroup {grp : List Block} (h : HeapRep c s (pre ++ grp ++ post) fl)
    (hne : grp ≠ []) (hfree : ∀ g ∈ grp, g.used = false) (hlast : lastUsed true pre = true)
    (hmem : ListsOutside c pre grp post fl) :
    Runs (do
        store c (groupStart c pre) (span grp ||| TAG_PRECEDING_USED)
        store c (wsub (groupStart c pre + span grp) WORD_SIZE) (span grp ||| TAG_PRECEDING_USED)
        insertFreeBlock c (groupStart c pre)) s
      (fun _ t => ∃ fl', Settled c s (pre ++ grp ++ post) t
        (pre ++ [⟨span grp, false⟩] ++ post) fl') := by
  have hbrk := h.brk
  have hlt := h.brk_lt
  obtain ⟨hdvd, hmin⟩ := h.span_group hne
  have hstart : groupStart c pre = c.firstBlock + span pre := rfl
  have hfirst : c.firstBlock = c.heapLo + 8 := rfl
  have hfl : ∀ p ∈ fl, p < groupStart c pre ∨ groupStart c pre + span grp ≤ p :=
    fun p hp => ((hmem p).mp hp).2
  have hmerge := h.merge hne hfree hlast hfl
  have htag : span grp ||| TAG_PRECEDING_USED = tagged (span grp) true false :=
    lor_preceding hdvd true
  rw [span_append, span_append] at hbrk
  have hnew : FreeAt c (pre ++ [⟨span grp, false⟩] ++ post) (groupStart c pre) (span grp) := by
    rw [List.append_assoc]
    exact freeAt_middle
  have hspan : span [⟨span grp, false⟩] = span grp := by simp
  have hused : ∀ p z, UsedAt c (pre ++ [⟨span grp, false⟩] ++ post) p z ↔
      UsedAt c (pre ++ grp ++ post) p z := by
    intro p z
    rw [h.usedAt_retile hmerge hspan]
    constructor
    · rintro (hp | hp)
      · exact hp.1
      · simp [placed] at hp
    · exact fun hp => Or.inl ⟨hp, h.usedAt_outside hfree hp⟩
  rw [htag, wsub_eq (by rw [WORD_SIZE]; omega) (by omega), WORD_SIZE]
  apply runs_store (by omega)
  apply runs_store (by dsimp only; omega)
  have hnot : groupStart c pre ∉ fl := fun hm => by
    have := hfl _ hm
    omega
  refine (hmerge.runs_insertFreeBlock hnot ⟨_, hnew⟩).mono ?_
  rintro _ t ⟨hrep, -, hlist⟩
  refine ⟨_, hrep, ?_, hused, ?_⟩
  · apply HeapRep.complete_retile hmem hrep hspan (List.subset_cons_self _ _)
    intro p z hp
    rw [placed, placed, List.mem_singleton, Prod.mk.injEq] at hp
    rw [hp.1]
    exact List.mem_cons_self
  · have hfree' : ∀ q ∈ groupStart c pre :: fl,
        ∃ z, FreeAt c (pre ++ [⟨span grp, false⟩] ++ post) q z := by
      intro q hq
      rcases List.mem_cons.mp hq with rfl | hq
      · exact ⟨_, hnew⟩
      · exact hmerge.free q hq
    have hkeep₂ := (hmerge.keeps_list hlist hfree').mono fun p z hp => (hused p z).mpr hp
    refine Keeps.trans (Keeps.mono (h.keeps_outside ?_) ?_) hkeep₂
    · intro x hx
      dsimp only
      rw [markFree, setWord_outside (by omega), setWord_outside (by omega)]
    · exact fun p z hp => ⟨hp, h.usedAt_outside hfree hp⟩

/-- Coalescing settles the heap, and the block's bytes end up in a free block that is
no smaller and has no free neighbour. -/
theorem runs_coalesceFreeBlock {size : ℕ} (h : HeapRep c s (pre ++ ⟨size, false⟩ :: post) fl)
    (hc : Complete c (pre ++ ⟨size, false⟩ :: post) fl) :
    Runs (coalesceFreeBlock c (groupStart c pre)) s (fun _ t => ∃ bs' fl',
      Settled c s (pre ++ ⟨size, false⟩ :: post) t bs' fl' ∧
        (NoAdjacentFree pre → NoAdjacentFree post → NoAdjacentFree bs') ∧
          ∃ p z, FreeAt c bs' p z ∧ size ≤ z) := by
  obtain ⟨hhead, hdvd, hmin, hend, -⟩ := h.middle
  have hrange := groupStart_range h
  have hbrk := h.brk
  have hlt := h.brk_lt
  have hlen := h.tiles.length_le
  have hold : FreeAt c (pre ++ ⟨size, false⟩ :: post) (groupStart c pre) size := freeAt_middle
  have holdmem := hc _ _ hold
  dsimp only at hhead hdvd hmin hend
  rw [span_append, span_cons] at hbrk hlen
  rw [List.length_append, List.length_cons] at hlen
  dsimp only at hbrk hlen
  rw [coalesceFreeBlock]
  apply runs_get
  apply runs_load hrange
  dsimp only
  rw [hhead, SIZE_tagged hdvd (by omega)]
  -- the backward loop
  have hpre : ∀ p z, FreeAt c pre p z → p ∈ fl := by
    intro p z hp
    apply hc p z
    rw [FreeAt, placed_append]
    exact List.mem_append_left _ hp
  refine (runs_coalescePreceding pre post h hpre (by omega) (by omega)).bind ?_
  rintro _ t₁ ⟨pre', grp₁, fl₁, rfl, hgrp₁, hlast, rfl, hdrop₁⟩
  dsimp only
  -- the forward loop
  have hstart : groupStart c ((pre' ++ grp₁) ++ [⟨size, false⟩]) =
      groupStart c (pre' ++ grp₁) + size := by
    rw [groupStart_append, span_cons, span_nil, Nat.add_zero]
  have hrep₁ : HeapRep c t₁ (((pre' ++ grp₁) ++ [⟨size, false⟩]) ++ post) fl₁ := by
    simpa using hdrop₁.rep
  have hpost : ∀ p z, FreeAt c (((pre' ++ grp₁) ++ [⟨size, false⟩]) ++ post) p z →
      groupStart c ((pre' ++ grp₁) ++ [⟨size, false⟩]) ≤ p → p ∈ fl₁ := by
    intro p z hp hle
    rw [List.append_assoc] at hp
    rw [hstart] at hle
    exact (hdrop₁.mem p).mpr ⟨hc p z hp, by omega⟩
  have hadd : wadd (groupStart c (pre' ++ grp₁)) size = groupStart c (pre' ++ grp₁) + size :=
    wadd_eq (by omega)
  have hspan : span (pre' ++ grp₁) = span pre' + span grp₁ := span_append _ _
  have hsum : size + span grp₁ + span post < 2 ^ 64 := by omega
  have hrun := runs_coalesceFollowing post _ hrep₁ hpost hsum
    (show post.length < s.brk + 1 by omega)
  rw [hstart] at hrun
  rw [hadd]
  refine hrun.bind ?_
  rintro _ t₂ ⟨grp₂, post', fl₂, rfl, hgrp₂, hnext, rfl, hdrop₂⟩
  dsimp only
  rw [List.append_assoc (pre' ++ grp₁), List.singleton_append] at hdrop₂
  have hgs : groupStart c (pre' ++ grp₁) = groupStart c pre' + span grp₁ := groupStart_append _ _
  by_cases hgrow : size + span grp₁ + span grp₂ = size
  · -- nothing to merge
    rw [if_neg (not_not.mpr hgrow)]
    refine runs_pure ⟨_, fl₂, ⟨hdrop₂.rep, ?_, fun _ _ => Iff.rfl, ?_⟩, ?_, _, _, hold, le_rfl⟩
    · intro p z hp
      rw [hdrop₂.mem, hdrop₁.mem]
      exact ⟨⟨hc p z hp, by omega⟩, by omega⟩
    · exact hdrop₁.keeps.trans hdrop₂.keeps
    · have hnil₁ : grp₁ = [] := by
        have hrep : HeapRep c s (pre' ++ grp₁ ++ (⟨size, false⟩ :: (grp₂ ++ post'))) fl := h
        exact hrep.group_eq_nil (by omega)
      have hnil₂ : grp₂ = [] := by
        have hrep : HeapRep c s (pre' ++ grp₁ ++ [⟨size, false⟩] ++ grp₂ ++ post') fl := by
          simpa using h
        exact hrep.group_eq_nil (by omega)
      intro hpre hpost
      rw [hnil₂, List.nil_append, noAdjacentFree_append, noAdjacentFree_cons]
      rw [hnil₂, List.nil_append] at hpost
      refine ⟨hpre, ⟨hpost, Or.inr hnext⟩, Or.inl ?_⟩
      rw [hnil₁, List.append_nil]
      exact hlast
  · rw [if_pos hgrow]
    have holdmem₂ : groupStart c (pre' ++ grp₁) ∈ fl₂ := by
      rw [hdrop₂.mem, hdrop₁.mem]
      exact ⟨⟨holdmem, Or.inr le_rfl⟩, Or.inl (by omega)⟩
    refine (runs_drop hdrop₂.rep hold holdmem₂).bind ?_
    rintro _ t₃ ⟨fl₃, hdrop₃⟩
    have hall : pre' ++ grp₁ ++ ⟨size, false⟩ :: (grp₂ ++ post') =
        pre' ++ (grp₁ ++ ⟨size, false⟩ :: grp₂) ++ post' := by simp
    have htotal : span (grp₁ ++ ⟨size, false⟩ :: grp₂) = size + span grp₁ + span grp₂ := by
      rw [span_append, span_cons]
      dsimp only
      omega
    have hfree : ∀ g ∈ grp₁ ++ ⟨size, false⟩ :: grp₂, g.used = false := by
      intro g hg
      rcases List.mem_append.mp hg with hg | hg
      · exact hgrp₁ g hg
      · rcases List.mem_cons.mp hg with rfl | hg
        · rfl
        · exact hgrp₂ g hg
    have hrep₃ := hdrop₃.rep
    rw [hall] at hrep₃
    have hmem : ListsOutside c pre' (grp₁ ++ ⟨size, false⟩ :: grp₂) post' fl₃ := by
      intro q
      have hiff : q ∈ fl ↔ ∃ z, FreeAt c (pre' ++ (grp₁ ++ ⟨size, false⟩ :: grp₂) ++ post') q z := by
        rw [← hall]
        exact ⟨h.free q, fun ⟨z, hz⟩ => hc q z hz⟩
      rw [hdrop₃.mem, hdrop₂.mem, hdrop₁.mem, htotal, hiff, and_assoc, and_assoc]
      apply and_congr_right
      intro _
      omega
    have hmerge := runs_mergeGroup hrep₃ (by simp) hfree hlast hmem
    have hcursor : groupStart c (pre' ++ grp₁) + size + span grp₂ =
        groupStart c pre' + (size + span grp₁ + span grp₂) := by omega
    rw [htotal] at hmerge
    rw [hcursor]
    refine hmerge.mono ?_
    rintro _ t ⟨fl', hset⟩
    rw [← hall] at hset
    refine ⟨_, fl', ⟨hset.rep, hset.complete, hset.used, ?_⟩, ?_, groupStart c pre',
      size + span grp₁ + span grp₂, ?_, ?_⟩
    · exact ((hdrop₁.keeps.trans hdrop₂.keeps).trans hdrop₃.keeps).trans hset.keeps
    · intro hpre hpost
      rw [noAdjacentFree_append] at hpre hpost
      rw [List.append_assoc, List.singleton_append, noAdjacentFree_append, noAdjacentFree_cons]
      exact ⟨hpre.1, ⟨hpost.2.1, Or.inr hnext⟩, Or.inl hlast⟩
    · rw [List.append_assoc]
      exact freeAt_middle
    · omega

end Courses.MallocLab
