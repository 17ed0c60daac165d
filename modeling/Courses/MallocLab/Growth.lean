import Courses.MallocLab.Coalesce

/-!
# Finding a free block

`searchFreeList` and `requestMoreSpace`: a block that is large enough comes off the
list, or the heap grows by whole pages at its end and the new block is coalesced
with what lies before it.
-/
namespace Courses.MallocLab

open Courses.Lib

variable {c : Config} {s t : Heap} {bs pre post : List Block} {fl : List ℕ} {p : ℕ}

theorem Settled.trans {u : Heap} {bs' bs'' : List Block} {fl' fl'' : List ℕ}
    (h : Settled c s bs t bs' fl') (h' : Settled c t bs' u bs'' fl'') :
    Settled c s bs u bs'' fl'' := by
  refine ⟨h'.rep, h'.complete, fun p z => (h'.used p z).trans (h.used p z), ?_⟩
  exact h.keeps.trans (h'.keeps.mono fun p z hp => (h.used p z).mpr hp)

/-! ## Searching the list -/

/-- What a search answers: NULL when no block of the list is large enough, else one
that is. -/
def Found (c : Config) (bs : List Block) (fl : List ℕ) (reqSize r : ℕ) : Prop :=
  (r = 0 ∧ ∀ p ∈ fl, ∀ z, FreeAt c bs p z → z < reqSize) ∨
    (r ∈ fl ∧ ∃ z, FreeAt c bs r z ∧ reqSize ≤ z)

theorem HeapRep.freeAt_head {z : ℕ} (h : HeapRep c s bs fl) (hz : FreeAt c bs p z) :
    SIZE (word s.bytes p) = z := by
  obtain ⟨xs, ys, rfl, rfl⟩ := exists_split_of_mem_placed hz
  obtain ⟨hhead, hdvd, -, hend, -⟩ := h.middle
  have := h.brk_lt
  exact (congrArg SIZE hhead).trans (SIZE_tagged hdvd (by omega))

theorem HeapRep.usedAt_head {z : ℕ} (h : HeapRep c s bs fl) (hz : UsedAt c bs p z) :
    SIZE (word s.bytes p) = z := by
  obtain ⟨xs, ys, rfl, rfl⟩ := exists_split_of_mem_placed hz
  obtain ⟨hhead, hdvd, -, hend, -⟩ := h.middle
  have := h.brk_lt
  exact (congrArg SIZE hhead).trans (SIZE_tagged hdvd (by omega))

theorem runs_searchLoop {reqSize : ℕ} (ys xs : List ℕ) (h : HeapRep c s bs (xs ++ ys))
    (hxs : ∀ p ∈ xs, ∀ z, FreeAt c bs p z → z < reqSize) {fuel : ℕ} (hfuel : ys.length < fuel) :
    Runs (searchLoop c reqSize fuel (ys.headD 0)) s
      (fun r t => t = s ∧ Found c bs (xs ++ ys) reqSize r) := by
  induction ys generalizing xs fuel with
  | nil =>
    obtain _ | fuel := fuel
    · exact absurd hfuel (Nat.not_lt_zero _)
    rw [searchLoop, List.headD_nil, if_neg (not_not.mpr rfl)]
    exact runs_pure ⟨rfl, Or.inl ⟨rfl, by simpa using hxs⟩⟩
  | cons p ys ih =>
    obtain _ | fuel := fuel
    · exact absurd hfuel (Nat.not_lt_zero _)
    have hpmem : p ∈ xs ++ p :: ys := by simp
    have hp := h.bounds hpmem
    have hpos := c.heapLo_pos
    have hfirst : c.firstBlock = c.heapLo + 8 := rfl
    obtain ⟨z, hz⟩ := h.free p hpmem
    obtain ⟨-, b, hseg⟩ := h.list
    have hnext := ((segment_middle b xs ys p 0).mp hseg).2.1
    rw [searchLoop, List.headD_cons, if_pos (by omega)]
    apply runs_load (by omega)
    rw [h.freeAt_head hz]
    by_cases hle : z ≥ reqSize
    · rw [if_pos hle]
      exact runs_pure ⟨rfl, Or.inr ⟨hpmem, z, hz, hle⟩⟩
    · rw [if_neg hle, (h.fields hpmem).1]
      apply runs_load (by omega)
      rw [hnext]
      have hassoc : xs ++ p :: ys = (xs ++ [p]) ++ ys := by simp
      rw [hassoc] at h ⊢
      refine ih (xs ++ [p]) h ?_ (Nat.lt_of_succ_lt_succ hfuel)
      intro q hq w hw
      rcases List.mem_append.mp hq with hq | hq
      · exact hxs q hq w hw
      · rw [List.mem_singleton.mp hq] at hw
        have hz' := h.freeAt_head hz
        have hw' := h.freeAt_head hw
        omega

theorem HeapRep.length_list_le (h : HeapRep c s bs fl) : fl.length ≤ s.brk := by
  have hsub : fl ⊆ List.range s.brk := by
    intro p hp
    rw [List.mem_range]
    have := h.bounds hp
    omega
  have := (h.nodup.subperm hsub).length_le
  rwa [List.length_range] at this

theorem runs_searchFreeList (h : HeapRep c s bs fl) (reqSize : ℕ) :
    Runs (searchFreeList c reqSize) s (fun r t => t = s ∧ Found c bs fl reqSize r) := by
  rw [searchFreeList]
  apply runs_get
  apply runs_load h.heapLo_range
  rw [h.list.1]
  refine runs_searchLoop fl [] h (fun p hp => absurd hp List.not_mem_nil) ?_
  have := h.length_list_le
  omega

/-! ## Growing the heap -/

/-- The memory with a free block of `n` bytes at `a` and the last word of the heap
after it. -/
def markNew (m : Mem) (a n : ℕ) (preceding : Bool) : Mem :=
  setWord (setWord (setWord m a (tagged n preceding false)) (a + (n - 8))
    (tagged n preceding false)) (a + n) TAG_USED

theorem HeapRep.extend (h : HeapRep c s bs fl) {n : ℕ} (hdvd : 8 ∣ n) (hmin : 32 ≤ n)
    (hle : s.brk + n ≤ c.maxAddr) :
    HeapRep c ⟨markNew s.bytes (groupStart c bs) n (lastUsed true bs), s.brk + n⟩
      (bs ++ [⟨n, false⟩]) fl := by
  have hbrk := h.brk
  have hmax := c.maxAddr_lt
  have hstart : groupStart c bs = c.firstBlock + span bs := rfl
  have htag : tagged n (lastUsed true bs) false < 2 ^ 64 := by
    rw [tagged]
    have := tagged_bits_lt (lastUsed true bs) false
    omega
  have hout : ∀ x, x < groupStart c bs →
      markNew s.bytes (groupStart c bs) n (lastUsed true bs) x = s.bytes x := by
    intro x hx
    rw [markNew, setWord_outside (by omega), setWord_outside (by omega),
      setWord_outside (by omega)]
  refine ⟨?_, ?_, ?_, hle, ?_, h.nodup, ?_⟩
  · rw [tiles_append]
    refine ⟨h.tiles.frame fun x _ hx => hout x hx, hdvd, hmin, ?_, fun _ => ?_, trivial⟩
    · change word _ (groupStart c bs) = _
      rw [markNew, word_setWord_of_disjoint (by omega), word_setWord_of_disjoint (by omega),
        word_setWord_self htag]
    · change SIZE (word _ (groupStart c bs + n - 8)) = n
      rw [markNew, Nat.add_sub_assoc (by omega), word_setWord_of_disjoint (by omega),
        word_setWord_self htag, SIZE_tagged hdvd (by omega)]
  · rw [span_append, span_cons, span_nil, lastUsed_concat, ← Nat.add_assoc]
    exact word_setWord_self (by decide)
  · rw [span_append, span_cons, span_nil]
    dsimp only
    omega
  · obtain ⟨hhead, b, hseg⟩ := h.list
    have hfirst : c.firstBlock = c.heapLo + 8 := rfl
    constructor
    · rw [← hhead]
      exact word_congr fun x _ hx => hout x (by omega)
    · refine ⟨b, hseg.frame fun q hq x _ hx => hout x ?_⟩
      have := (h.bounds hq).2.1
      omega
  · intro q hq
    obtain ⟨z, hz⟩ := h.free q hq
    refine ⟨z, ?_⟩
    rw [placed_append]
    exact List.mem_append_left _ hz

/-- The bytes of the whole pages that hold `reqSize` bytes, over the naturals. -/
def pageBytes (c : Config) (reqSize : ℕ) : ℕ :=
  (reqSize + c.pagesize - 1) / c.pagesize * c.pagesize

theorem wsub_wadd_one {a b : ℕ} (hpos : 1 ≤ a + b) (hle : a + b ≤ 2 ^ 64) :
    wsub (wadd a b) 1 = a + b - 1 := by
  rw [wsub, wadd]
  omega

theorem le_pageBytes (c : Config) (reqSize : ℕ) : reqSize ≤ pageBytes c reqSize := by
  have hpos := c.pagesize_pos
  have hdiv := Nat.div_add_mod (reqSize + c.pagesize - 1) c.pagesize
  have hmod := Nat.mod_lt (reqSize + c.pagesize - 1) hpos
  rw [pageBytes, Nat.mul_comm]
  omega

theorem dvd_pageBytes (c : Config) (reqSize : ℕ) : 8 ∣ pageBytes c reqSize :=
  Dvd.dvd.mul_left c.pagesize_aligned _

/-- Without a wrap, `requestMoreSpace` asks for those pages. -/
theorem totalSizeFor_eq {reqSize : ℕ} (hpos : 1 ≤ reqSize)
    (hwrap : reqSize + c.pagesize ≤ 2 ^ 64) (hlt : pageBytes c reqSize < 2 ^ 64) :
    totalSizeFor c reqSize = pageBytes c reqSize := by
  rw [totalSizeFor, wsub_wadd_one (by omega) hwrap]
  exact wmul_eq hlt

theorem usedAt_concat_free {n : ℕ} (q z : ℕ) :
    UsedAt c (bs ++ [⟨n, false⟩]) q z ↔ UsedAt c bs q z := by
  rw [UsedAt, placed_append, List.mem_append, UsedAt]
  simp [placed]

/-- New memory, as one free block at the end of the heap, coalesced. -/
theorem runs_requestMoreSpace (h : HeapRep c s bs fl) (hc : Complete c bs fl) {reqSize : ℕ}
    (hmin : 32 ≤ reqSize) (hwrap : reqSize + c.pagesize ≤ 2 ^ 64)
    (hbrk : s.brk + pageBytes c reqSize < 2 ^ 64) :
    Runs (requestMoreSpace c reqSize) s (fun _ t => ∃ bs' fl', Settled c s bs t bs' fl' ∧
      (NoAdjacentFree bs → NoAdjacentFree bs') ∧ ∃ p z, FreeAt c bs' p z ∧ reqSize ≤ z) := by
  have hle := le_pageBytes c reqSize
  have hdvd := dvd_pageBytes c reqSize
  have htotal := totalSizeFor_eq (c := c) (by omega) hwrap (by omega)
  have hend := h.brk
  have hstart : groupStart c bs = c.firstBlock + span bs := rfl
  have hfirst : c.firstBlock = c.heapLo + 8 := rfl
  rw [requestMoreSpace, htotal]
  generalize pageBytes c reqSize = n at hle hdvd hbrk
  dsimp only
  by_cases hmax : wadd s.brk n > c.maxAddr
  · -- `mem_sbrk` fails and the source exits
    have hsbrk : memSbrk c n s = .ok (none, s) := if_pos hmax
    refine Runs.bind (P := fun r t => r = none) ?_ ?_
    · rw [Runs, hsbrk]
    · rintro _ _ rfl
      rfl
  · have hsbrk : memSbrk c n s = .ok (some s.brk, { s with brk := wadd s.brk n }) := if_neg hmax
    rw [wadd_eq hbrk] at hsbrk hmax
    refine Runs.bind (P := fun r t => r = some s.brk ∧ t = { s with brk := s.brk + n }) ?_ ?_
    · rw [Runs, hsbrk]
      exact ⟨rfl, rfl⟩
    · rintro _ _ ⟨rfl, rfl⟩
      dsimp only
      have hnew : wsub s.brk WORD_SIZE = groupStart c bs := by
        rw [wsub_eq (by rw [WORD_SIZE]; omega) (by omega), WORD_SIZE]
        omega
      have hfooter : word s.bytes (groupStart c bs) = tagged 0 (lastUsed true bs) true := h.footer
      have hext := h.extend hdvd (by omega) (by omega)
      rw [hnew]
      apply runs_load (by dsimp only; omega)
      dsimp only
      rw [hfooter, tagged_land_preceding (dvd_zero 8), lor_preceding hdvd,
        wsub_eq (by rw [WORD_SIZE]; omega) (by omega), WORD_SIZE, wadd_eq (by omega),
        wadd_eq (by omega)]
      apply runs_store (by dsimp only; omega)
      apply runs_store (by dsimp only; omega)
      apply runs_store (by dsimp only; omega)
      have hfree : FreeAt c (bs ++ [⟨n, false⟩]) (groupStart c bs) n := freeAt_middle
      have hnot : groupStart c bs ∉ fl := fun hm => by
        have := (h.bounds hm).2.1
        omega
      refine (hext.runs_insertFreeBlock hnot ⟨n, hfree⟩).bind ?_
      rintro _ t₁ ⟨hrep₁, -, hlist⟩
      have hcomplete : Complete c (bs ++ [⟨n, false⟩]) (groupStart c bs :: fl) := by
        intro q z hq
        rw [FreeAt, placed_append, List.mem_append] at hq
        rcases hq with hq | hq
        · exact List.mem_cons_of_mem _ (hc q z hq)
        · rw [placed, placed, List.mem_singleton, Prod.mk.injEq] at hq
          rw [hq.1]
          exact List.mem_cons_self
      refine (runs_coalesceFreeBlock hrep₁ hcomplete).mono ?_
      rintro _ t₂ ⟨bs', fl', hset, hapart, q, z, hq, hz⟩
      refine ⟨bs', fl', ⟨hset.rep, hset.complete, fun q z => ?_, ?_⟩,
        fun hbs => hapart hbs noAdjacentFree_nil, q, z, hq, by omega⟩
      · exact (hset.used q z).trans (usedAt_concat_free q z)
      · have hgl : ∀ q ∈ groupStart c bs :: fl, ∃ z, FreeAt c (bs ++ [⟨n, false⟩]) q z := by
          intro q hq
          exact hrep₁.free q hq
        have hkeep₁ : Keeps (UsedAt c bs) s.bytes
            (markNew s.bytes (groupStart c bs) n (lastUsed true bs)) := by
          intro q z hq x hx hx'
          have hb := placed_bounds hq
          dsimp only at hb
          rw [markNew, setWord_outside (by omega), setWord_outside (by omega),
            setWord_outside (by omega)]
        have hkeep₂ := (hext.keeps_list hlist hgl).trans hset.keeps
        exact hkeep₁.trans (hkeep₂.mono fun q z hq => (usedAt_concat_free q z).mpr hq)

/-- Every free block of the heap is smaller than the request. -/
def MustGrow (c : Config) (s : Heap) (reqSize : ℕ) : Prop :=
  ∀ b ∈ heapBlocks c s, b.used = false → b.size < reqSize

theorem HeapRep.mustGrow_iff (h : HeapRep c s bs fl) {reqSize : ℕ} :
    MustGrow c s reqSize ↔ ∀ p z, FreeAt c bs p z → z < reqSize := by
  have hblock : ∀ b, b ∈ bs ↔ ∃ p, (p, b) ∈ placed c.firstBlock bs := by
    intro b
    conv_lhs => rw [← map_snd_placed c.firstBlock bs, List.mem_map]
    exact ⟨fun ⟨⟨p, d⟩, hp, hd⟩ => ⟨p, hd ▸ hp⟩, fun ⟨p, hp⟩ => ⟨(p, b), hp, rfl⟩⟩
  rw [MustGrow, h.heapBlocks_eq]
  constructor
  · intro hsmall p z hz
    exact hsmall _ ((hblock _).mpr ⟨p, hz⟩) rfl
  · rintro hsmall ⟨z, u⟩ hb hu
    obtain ⟨p, hp⟩ := (hblock _).mp hb
    cases hu
    exact hsmall p z hp

/-- The sums of `requestMoreSpace` and `mem_sbrk` do not wrap. -/
def GrowthFits (c : Config) (s : Heap) (reqSize : ℕ) : Prop :=
  reqSize + c.pagesize ≤ 2 ^ 64 ∧ s.brk + pageBytes c reqSize < 2 ^ 64

/-- A free block that is large enough, from the list or from new memory. -/
theorem runs_obtainFreeBlock (h : HeapRep c s bs fl) (hc : Complete c bs fl) {reqSize : ℕ}
    (hmin : 32 ≤ reqSize) (hwrap : MustGrow c s reqSize → GrowthFits c s reqSize) :
    Runs (obtainFreeBlock c reqSize) s (fun r t => ∃ bs' fl' z, Settled c s bs t bs' fl' ∧
      (NoAdjacentFree bs → NoAdjacentFree bs') ∧ FreeAt c bs' r z ∧ reqSize ≤ z) := by
  refine (runs_searchFreeList h reqSize).bind ?_
  rintro r _ ⟨rfl, hfound⟩
  rcases hfound with ⟨rfl, hnone⟩ | ⟨hr, z, hz, hle⟩
  · rw [if_pos rfl]
    have hfits := hwrap (h.mustGrow_iff.mpr fun p z hz => hnone p (hc p z hz) z hz)
    refine (runs_requestMoreSpace h hc hmin hfits.1 hfits.2).bind ?_
    rintro _ t ⟨bs', fl', hset, hapart, p, z, hp, hz⟩
    refine (runs_searchFreeList hset.rep reqSize).mono ?_
    rintro r _ ⟨rfl, hfound⟩
    rcases hfound with ⟨-, hnone'⟩ | ⟨-, w, hw, hle⟩
    · have := hnone' p (hset.complete p z hp) z hp
      omega
    · exact ⟨bs', fl', w, hset, hapart, hw, hle⟩
  · have hne : r ≠ 0 := by
      have := (h.bounds hr).1
      have := c.heapLo_pos
      rw [Config.firstBlock] at *
      omega
    rw [if_neg hne]
    exact runs_pure ⟨bs, fl, z, ⟨h, hc, fun _ _ => Iff.rfl, Keeps.refl _ _⟩, id, hz, hle⟩

end Courses.MallocLab
