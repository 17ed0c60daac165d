import Courses.MallocLab.Client

/-!
# The arithmetic of a request

Between the size that `mm_malloc` is given and the comparison in `mem_sbrk` lie four
sums: the header word, the alignment, the pages, the new break. None of them is checked.
A request is served or refused as it should be exactly if none of them wraps, and the
last two are computed only if no free block is large enough.
-/
namespace Courses.MallocLab

open Courses.Lib

variable {c : Config} {s s' : Client} {h : Heap} {α β : Type} {size : ℕ}

/-! ## Where memory can run out -/

/-- The computation does not stop for want of memory. -/
def AsksNoMemory (x : HeapM α) : Prop := ∀ h, x h ≠ .error .outOfMemory

theorem asksNoMemory_pure (a : α) : AsksNoMemory (pure a) := nofun

theorem asksNoMemory_get : AsksNoMemory (get : HeapM Heap) := nofun

theorem asksNoMemory_fuel : AsksNoMemory (stop .fuel : HeapM α) := by
  intro h heq
  cases heq

theorem asksNoMemory_load (a : ℕ) : AsksNoMemory (load c a) := by
  intro h
  unfold load
  split <;> simp

theorem asksNoMemory_store (a v : ℕ) : AsksNoMemory (store c a v) := by
  intro h
  unfold store
  split <;> simp

theorem AsksNoMemory.bind {x : HeapM α} {f : α → HeapM β} (hx : AsksNoMemory x)
    (hf : ∀ a, AsksNoMemory (f a)) : AsksNoMemory (x >>= f) := by
  intro h
  change (x h).bind (fun r => f r.1 r.2) ≠ _
  cases hxh : x h with
  | error e =>
    intro heq
    cases heq
    exact hx h hxh
  | ok r => exact hf r.1 r.2

theorem AsksNoMemory.ite {p : Prop} [Decidable p] {x y : HeapM α} (hx : AsksNoMemory x)
    (hy : AsksNoMemory y) : AsksNoMemory (if p then x else y) := by
  split
  · exact hx
  · exact hy

theorem asksNoMemory_searchLoop (reqSize fuel freeBlock : ℕ) :
    AsksNoMemory (searchLoop c reqSize fuel freeBlock) := by
  induction fuel generalizing freeBlock with
  | zero => exact asksNoMemory_fuel
  | succ fuel ih =>
    unfold searchLoop
    apply AsksNoMemory.ite
    · apply (asksNoMemory_load _).bind fun word => ?_
      exact (asksNoMemory_pure _).ite ((asksNoMemory_load _).bind fun next => ih next)
    · exact asksNoMemory_pure _

theorem asksNoMemory_searchFreeList (reqSize : ℕ) : AsksNoMemory (searchFreeList c reqSize) := by
  unfold searchFreeList
  apply asksNoMemory_get.bind fun h => ?_
  exact (asksNoMemory_load _).bind fun head => asksNoMemory_searchLoop _ _ _

theorem asksNoMemory_insertFreeBlock (freeBlock : ℕ) :
    AsksNoMemory (insertFreeBlock c freeBlock) := by
  unfold insertFreeBlock
  apply (asksNoMemory_load _).bind fun oldHead => ?_
  apply (asksNoMemory_store _ _).bind fun _ => ?_
  apply AsksNoMemory.ite
  · apply (asksNoMemory_load _).bind fun prev => ?_
    apply (asksNoMemory_store _ _).bind fun _ => ?_
    exact (asksNoMemory_store _ _).bind fun _ => asksNoMemory_store _ _
  · exact asksNoMemory_store _ _

theorem asksNoMemory_removeFreeBlock (freeBlock : ℕ) :
    AsksNoMemory (removeFreeBlock c freeBlock) := by
  have hunlink : ∀ nextFree prevFree : ℕ, AsksNoMemory (do
      if freeBlock = (← load c c.heapLo) then store c c.heapLo nextFree
      else if prevFree ≠ 0 then store c (nextField prevFree) nextFree) := fun _ _ =>
    (asksNoMemory_load _).bind fun _ =>
      (asksNoMemory_store _ _).ite ((asksNoMemory_store _ _).ite (asksNoMemory_pure _))
  unfold removeFreeBlock
  apply (asksNoMemory_load _).bind fun next => ?_
  apply (asksNoMemory_load _).bind fun prev => ?_
  apply AsksNoMemory.ite
  · exact (asksNoMemory_store _ _).bind fun _ => hunlink next prev
  · exact hunlink next prev

theorem asksNoMemory_coalescePreceding (fuel blockCursor newSize : ℕ) :
    AsksNoMemory (coalescePreceding c fuel blockCursor newSize) := by
  induction fuel generalizing blockCursor newSize with
  | zero => exact asksNoMemory_fuel
  | succ fuel ih =>
    unfold coalescePreceding
    apply (asksNoMemory_load _).bind fun tags => ?_
    apply AsksNoMemory.ite
    · apply (asksNoMemory_load _).bind fun word => ?_
      exact (asksNoMemory_removeFreeBlock _).bind fun _ => ih _ _
    · exact asksNoMemory_pure _

theorem asksNoMemory_coalesceFollowing (fuel blockCursor newSize : ℕ) :
    AsksNoMemory (coalesceFollowing c fuel blockCursor newSize) := by
  induction fuel generalizing blockCursor newSize with
  | zero => exact asksNoMemory_fuel
  | succ fuel ih =>
    unfold coalesceFollowing
    apply (asksNoMemory_load _).bind fun tags => ?_
    apply AsksNoMemory.ite
    · apply (asksNoMemory_load _).bind fun word => ?_
      exact (asksNoMemory_removeFreeBlock _).bind fun _ => ih _ _
    · exact asksNoMemory_pure _

theorem asksNoMemory_coalesceFreeBlock (oldBlock : ℕ) :
    AsksNoMemory (coalesceFreeBlock c oldBlock) := by
  unfold coalesceFreeBlock
  apply asksNoMemory_get.bind fun h => ?_
  apply (asksNoMemory_load _).bind fun word => ?_
  apply (asksNoMemory_coalescePreceding _ _ _).bind fun before => ?_
  apply (asksNoMemory_coalesceFollowing _ _ _).bind fun after => ?_
  apply AsksNoMemory.ite
  · apply (asksNoMemory_removeFreeBlock _).bind fun _ => ?_
    apply (asksNoMemory_store _ _).bind fun _ => ?_
    apply (asksNoMemory_store _ _).bind fun _ => ?_
    exact asksNoMemory_insertFreeBlock _
  · exact asksNoMemory_pure _

theorem asksNoMemory_splitBlock (block reqSize blockSize tag : ℕ) :
    AsksNoMemory (splitBlock c block reqSize blockSize tag) := by
  unfold splitBlock
  apply (asksNoMemory_store _ _).bind fun _ => ?_
  apply (asksNoMemory_load _).bind fun _ => ?_
  apply (asksNoMemory_store _ _).bind fun _ => ?_
  apply (asksNoMemory_store _ _).bind fun _ => ?_
  apply (asksNoMemory_store _ _).bind fun _ => ?_
  exact asksNoMemory_insertFreeBlock _

/-- A computation that stops for want of memory does so in its first part, or in the
second from where the first has led. -/
theorem outOfMemory_bind {x : HeapM α} {f : α → HeapM β} (h₀ : (x >>= f) h = .error .outOfMemory) :
    x h = .error .outOfMemory ∨ ∃ a t, x h = .ok (a, t) ∧ f a t = .error .outOfMemory := by
  change (x h).bind (fun r => f r.1 r.2) = _ at h₀
  cases hxh : x h with
  | error e =>
    rw [hxh] at h₀
    cases h₀
    exact Or.inl rfl
  | ok r =>
    rw [hxh] at h₀
    exact Or.inr ⟨r.1, r.2, rfl, h₀⟩

/-- Memory runs out where the heap should grow, and nowhere else. -/
theorem outOfMemory_requestMoreSpace {reqSize : ℕ}
    (h₀ : requestMoreSpace c reqSize h = .error .outOfMemory) :
    memSbrk c (totalSizeFor c reqSize) h = .ok (none, h) := by
  unfold requestMoreSpace at h₀
  rcases outOfMemory_bind h₀ with hsbrk | ⟨r, t, hsbrk, hrest⟩
  · unfold memSbrk at hsbrk
    split at hsbrk <;> cases hsbrk
  · cases r with
    | none =>
      unfold memSbrk at hsbrk ⊢
      split at hsbrk
      · next hmax => exact if_pos hmax
      · cases hsbrk
    | some old =>
      refine absurd hrest (AsksNoMemory.bind (asksNoMemory_load _) (fun word => ?_) t)
      apply (asksNoMemory_store _ _).bind fun _ => ?_
      apply (asksNoMemory_store _ _).bind fun _ => ?_
      apply (asksNoMemory_store _ _).bind fun _ => ?_
      exact (asksNoMemory_insertFreeBlock _).bind fun _ => asksNoMemory_coalesceFreeBlock _

theorem outOfMemory_obtainFreeBlock {reqSize : ℕ}
    (h₀ : obtainFreeBlock c reqSize h = .error .outOfMemory) :
    ∃ t, searchFreeList c reqSize h = .ok (0, t) ∧
      memSbrk c (totalSizeFor c reqSize) t = .ok (none, t) := by
  unfold obtainFreeBlock at h₀
  rcases outOfMemory_bind h₀ with hsearch | ⟨p, t, hsearch, hrest⟩
  · exact absurd hsearch (asksNoMemory_searchFreeList reqSize h)
  · split at hrest
    · next hp =>
      rcases outOfMemory_bind hrest with hmore | ⟨-, u, -, hagain⟩
      · exact ⟨t, hp ▸ hsearch, outOfMemory_requestMoreSpace hmore⟩
      · exact absurd hagain (asksNoMemory_searchFreeList reqSize u)
    · cases hrest

theorem outOfMemory_mmMalloc (h₀ : mmMalloc c size h = .error .outOfMemory) :
    ∃ t, searchFreeList c (reqSizeFor size) h = .ok (0, t) ∧
      memSbrk c (totalSizeFor c (reqSizeFor size)) t = .ok (none, t) := by
  unfold mmMalloc at h₀
  split at h₀
  · cases h₀
  · rcases outOfMemory_bind h₀ with hobtain | ⟨p, t, -, hrest⟩
    · exact outOfMemory_obtainFreeBlock hobtain
    · refine absurd hrest (AsksNoMemory.bind (asksNoMemory_load _) (fun tags => ?_) t)
      apply (asksNoMemory_load _).bind fun word => ?_
      apply (asksNoMemory_removeFreeBlock _).bind fun _ => ?_
      apply AsksNoMemory.ite
      · exact (asksNoMemory_splitBlock _ _ _ _).bind fun _ => asksNoMemory_pure _
      · apply (asksNoMemory_load _).bind fun _ => ?_
        apply (asksNoMemory_store _ _).bind fun _ => ?_
        apply (asksNoMemory_load _).bind fun _ => ?_
        exact (asksNoMemory_store _ _).bind fun _ => asksNoMemory_pure _

/-! ## The sums -/

/-- The bytes of a block for `size` bytes, over the naturals: a header word more, a
multiple of the alignment, and never less than the smallest block. -/
def blockBytes (size : ℕ) : ℕ := max 32 ((size + 15) / 8 * 8)

/-- No sum that is computed for the request reaches `2 ^ 64`. -/
def SumsFit (c : Config) (h : Heap) (size : ℕ) : Prop :=
  size + 16 < 2 ^ 64 ∧ (MustGrow c h (blockBytes size) →
    blockBytes size + c.pagesize < 2 ^ 64 ∧ h.brk + pageBytes c (blockBytes size) < 2 ^ 64)

/-- The block of a request is served: it is in use in a consistent heap, and large enough. -/
def Served (c : Config) (h : Heap) (size : ℕ) : Prop :=
  ∃ p t, mmMalloc c size h = .ok (p, t) ∧ size ≤ usable t p ∧
    ∃ bs fl z, Consistent c t bs fl ∧ UsedAt c bs (p - 8) z

/-- The request is refused: no free block is large enough, and `mem_sbrk` fails in the
heap as it was. -/
def Refused (c : Config) (h : Heap) (size : ℕ) : Prop :=
  mmMalloc c size h = .error .outOfMemory ∧
    searchFreeList c (reqSizeFor size) h = .ok (0, h) ∧
      memSbrk c (totalSizeFor c (reqSizeFor size)) h = .ok (none, h)

/-- A request whose sums are exact as far as they are computed, and that is served or refused. -/
structure SafeRequest (c : Config) (h : Heap) (size : ℕ) : Prop where
  header : wadd size WORD_SIZE = size + WORD_SIZE
  aligned : MIN_BLOCK_SIZE < size + WORD_SIZE →
    wadd (size + WORD_SIZE) ALIGNMENT = size + WORD_SIZE + ALIGNMENT
  rounded : size + WORD_SIZE ≤ reqSizeFor size
  pages : searchFreeList c (reqSizeFor size) h = .ok (0, h) →
    wadd (reqSizeFor size) c.pagesize = reqSizeFor size + c.pagesize ∧
      reqSizeFor size ≤ totalSizeFor c (reqSizeFor size) ∧
        wadd h.brk (totalSizeFor c (reqSizeFor size)) =
          h.brk + totalSizeFor c (reqSizeFor size)
  outcome : Served c h size ∨ Refused c h size

theorem reqSizeFor_eq (hsize : size + 16 ≤ 2 ^ 64) : reqSizeFor size = blockBytes size := by
  rw [reqSizeFor, WORD_SIZE, MIN_BLOCK_SIZE, ALIGNMENT, wadd_eq (by omega), blockBytes]
  split_ifs with hsmall
  · omega
  · rw [wsub_wadd_one (by omega) (by omega), wmul_eq (by omega)]
    omega

/-- The search fails exactly if every free block is too small. -/
theorem HeapRep.search_none_iff {bs : List Block} {fl : List ℕ} (hrep : HeapRep c h bs fl)
    (hc : Complete c bs fl) (reqSize : ℕ) :
    searchFreeList c reqSize h = .ok (0, h) ↔ MustGrow c h reqSize := by
  have hrun := runs_searchFreeList hrep reqSize
  rw [hrep.mustGrow_iff]
  unfold Runs at hrun
  cases hsearch : searchFreeList c reqSize h with
  | error e =>
    rw [hsearch] at hrun
    cases hrun
    exact absurd hsearch (asksNoMemory_searchFreeList reqSize h)
  | ok r =>
    obtain ⟨p, t⟩ := r
    rw [hsearch] at hrun
    obtain ⟨ht, hfound⟩ := hrun
    change t = h at ht
    subst ht
    change Found c bs fl reqSize p at hfound
    constructor
    · intro heq
      cases heq
      rcases hfound with ⟨-, hsmall⟩ | ⟨hmem, -⟩
      · exact fun p z hz => hsmall p (hc p z hz) z hz
      · have hbound := (hrep.bounds hmem).1
        have hfirst : c.firstBlock = c.heapLo + 8 := rfl
        omega
    · intro hsmall
      rcases hfound with ⟨rfl, -⟩ | ⟨-, z, hz, hle⟩
      · rfl
      · have := hsmall p z hz
        omega

section Resting

variable {U : ℕ → ℕ → Prop}

theorem Resting.search_none_iff (hrest : Resting c h U) (reqSize : ℕ) :
    searchFreeList c reqSize h = .ok (0, h) ↔ MustGrow c h reqSize := by
  obtain ⟨bs, fl, hrep, hc, -⟩ := hrest
  exact hrep.search_none_iff hc reqSize

/-- Sums that fit are exact. -/
theorem totalSizeFor_of_fit {reqSize : ℕ} (hmin : 32 ≤ reqSize)
    (hpages : reqSize + c.pagesize < 2 ^ 64) :
    totalSizeFor c reqSize = pageBytes c reqSize := by
  apply totalSizeFor_eq (by omega) (by omega)
  have hle : pageBytes c reqSize ≤ reqSize + c.pagesize - 1 := Nat.div_mul_le_self _ _
  have hpos := c.pagesize_pos
  omega

theorem Resting.runs_mmMalloc (hrest : Resting c h U) (hsize : size ≠ 0) (hfit : SumsFit c h size) :
    Runs (mmMalloc c size) h
      (fun r t => Allocated c h U size r t ∧ (Coalesced c h → Coalesced c t)) := by
  have hreq := reqSizeFor_eq hfit.1.le
  apply runs_mmMalloc_of_fits hrest hsize (by have := hfit.1; omega)
  rw [hreq]
  exact fun hgrow => ⟨(hfit.2 hgrow).1.le, (hfit.2 hgrow).2⟩

theorem Resting.served_or_refused (hrest : Resting c h U) (hsize : size ≠ 0)
    (hfit : SumsFit c h size) : Served c h size ∨ Refused c h size := by
  have hrun := hrest.runs_mmMalloc hsize hfit
  unfold Runs at hrun
  cases hcall : mmMalloc c size h with
  | error e =>
    rw [hcall] at hrun
    cases hrun
    obtain ⟨t, hsearch, hsbrk⟩ := outOfMemory_mmMalloc hcall
    obtain ⟨bs, fl, hrep, hc, -⟩ := hrest
    have ht := runs_searchFreeList hrep (reqSizeFor size)
    rw [Runs, hsearch] at ht
    change t = h ∧ _ at ht
    rw [ht.1] at hsearch hsbrk
    exact Or.inr ⟨hcall, hsearch, hsbrk⟩
  | ok r =>
    rw [hcall] at hrun
    obtain ⟨⟨b, z, hr, hz, -, hrest', -⟩, -⟩ := hrun
    have husable : usable r.2 (b + 8) = z - 8 :=
      Resting.usable_eq (s := ⟨r.2, []⟩) hrest' (Or.inr ⟨rfl, rfl⟩)
    obtain ⟨bs, fl, hrep, hc, hU⟩ := hrest'
    refine Or.inl ⟨r.1, r.2, hcall, ?_, bs, fl, z, hrep.consistent hc, ?_⟩
    · rw [hr, husable]
      omega
    · rw [hr, Nat.add_sub_cancel]
      exact (hU b z).mpr (Or.inr ⟨rfl, rfl⟩)

theorem SafeRequest.sumsFit (hrest : Resting c h U) (hsafe : SafeRequest c h size) :
    SumsFit c h size := by
  have hheader := hsafe.header
  have haligned := hsafe.aligned
  have hlt : ∀ a b, wadd a b < 2 ^ 64 := fun a b => Nat.mod_lt _ (by decide)
  have hfirst : size + 16 < 2 ^ 64 := by
    have h₁ := hlt size WORD_SIZE
    by_cases hsmall : MIN_BLOCK_SIZE < size + WORD_SIZE
    · have h₂ := hlt (size + WORD_SIZE) ALIGNMENT
      rw [haligned hsmall, WORD_SIZE, ALIGNMENT] at h₂
      omega
    · rw [WORD_SIZE, MIN_BLOCK_SIZE] at hsmall
      omega
  have hreq := reqSizeFor_eq hfirst.le
  refine ⟨hfirst, fun hgrow => ?_⟩
  rw [← hreq] at hgrow ⊢
  obtain ⟨hpages, -, hbrk⟩ := hsafe.pages ((hrest.search_none_iff _).mpr hgrow)
  have h₃ := hlt (reqSizeFor size) c.pagesize
  have h₄ := hlt h.brk (totalSizeFor c (reqSizeFor size))
  rw [hpages] at h₃
  rw [hbrk, totalSizeFor_of_fit (by rw [hreq]; exact le_max_left _ _) h₃] at h₄
  exact ⟨h₃, h₄⟩

theorem SumsFit.safeRequest (hrest : Resting c h U) (hsize : size ≠ 0) (hfit : SumsFit c h size) :
    SafeRequest c h size := by
  have hfirst := hfit.1
  have hreq := reqSizeFor_eq hfirst.le
  have hmin : 32 ≤ reqSizeFor size := by
    rw [hreq]
    exact le_max_left _ _
  refine ⟨?_, fun _ => ?_, ?_, fun hsearch => ?_, hrest.served_or_refused hsize hfit⟩
  · exact wadd_eq (by rw [WORD_SIZE]; omega)
  · exact wadd_eq (by rw [WORD_SIZE, ALIGNMENT]; omega)
  · exact (reqSizeFor_spec (by omega)).2.2
  · have hgrow := (hrest.search_none_iff _).mp hsearch
    rw [hreq] at hgrow
    obtain ⟨hpages, hbrk⟩ := hfit.2 hgrow
    rw [← hreq] at hpages hbrk
    rw [totalSizeFor_of_fit hmin hpages]
    exact ⟨wadd_eq hpages, le_pageBytes c _, wadd_eq hbrk⟩

end Resting

/-! ## Every run -/

/-- What the client may do, where a request need not be one that could grow the heap. -/
def Admissible (c : Config) (s : Client) : Action → Prop
  | .malloc size => size ≠ 0 → SumsFit c s.heap size
  | a => Permitted c s a

theorem Inv.perform_admissible (hinv : Inv c s) {a : Action} (ha : Admissible c s a)
    (hs : MallocLab.perform c s a = .ok s') : Inv c s' := by
  cases a with
  | malloc size =>
    by_cases hsize : size = 0
    · exact hinv.perform (a := .malloc size) (fun hne => absurd hsize hne) hs
    · obtain ⟨U, hrest, howned⟩ := hinv
      obtain ⟨⟨r, t⟩, ⟨⟨b, z, rfl, hz, hfresh, ht, -⟩, -⟩, rfl⟩ :=
        (hrest.runs_mmMalloc hsize (ha hsize)).of_map_ok hs
      exact ⟨_, ht, howned.grant hfresh hz⟩
  | free ptr => exact hinv.perform (a := .free ptr) ha hs
  | realloc ptr size => exact hinv.perform (a := .realloc ptr size) ha hs
  | write x v => exact hinv.perform (a := .write x v) ha hs

/-- In every heap that a client brings about, a request is safe exactly if its sums fit. -/
theorem safeRequest_iff {m : Mem} {s₀ : Client} (h₀ : initial c m = .ok s₀)
    (hs : Reaches (step c) (Admissible c) s₀ s) (hsize : size ≠ 0) :
    SafeRequest c s.heap size ↔ SumsFit c s.heap size := by
  have hinv : Inv c s := by
    apply hs.invariant (Inv.of_initial h₀)
    intro t a t' ht ha hstep
    exact ht.perform_admissible ha (perform_of_step hstep)
  obtain ⟨U, hrest, -⟩ := hinv
  exact ⟨SafeRequest.sumsFit hrest, SumsFit.safeRequest hrest hsize⟩

theorem safeRequest_iff_demo :
    ∃ s₀, initial demo (fun _ => 0) = .ok s₀ ∧ SumsFit demo s₀.heap 100 ∧
      SafeRequest demo s₀.heap 100 := by
  have hinit : (initial demo (fun _ => 0)).toOption.map (fun s => s.heap.brk) = some 56 := by
    decide +kernel
  obtain ⟨s₀, h₀, hbrk⟩ := exists_initial_of_map hinit
  have hfit : SumsFit demo s₀.heap 100 := by
    refine ⟨by decide, fun _ => ⟨by decide, ?_⟩⟩
    rw [hbrk]
    decide
  exact ⟨s₀, h₀, hfit, (safeRequest_iff h₀ .refl (by decide)).mpr hfit⟩

/-- A request for `2 ^ 64 - 1` bytes of a new heap gets a block of 24. -/
theorem not_safeRequest_wrapped :
    ∃ s₀ p t, initial demo (fun _ => 0) = .ok s₀ ∧ mmMalloc demo (2 ^ 64 - 1) s₀.heap = .ok (p, t) ∧
      usable t p = 24 ∧ ¬ SafeRequest demo s₀.heap (2 ^ 64 - 1) := by
  have hcall : (initial demo (fun _ => 0)).toOption.map (fun s =>
      (mmMalloc demo (2 ^ 64 - 1) s.heap).toOption.map fun r => usable r.2 r.1) =
        some (some 24) := by
    decide +kernel
  obtain ⟨s₀, h₀, hs₀⟩ := exists_initial_of_map hcall
  obtain ⟨⟨p, t⟩, hpt, husable⟩ := Option.map_eq_some_iff.mp hs₀
  refine ⟨s₀, p, t, h₀, ?_, husable, fun hsafe => absurd hsafe.header (by decide)⟩
  cases hrun : mmMalloc demo (2 ^ 64 - 1) s₀.heap with
  | error e =>
    rw [hrun] at hpt
    cases hpt
  | ok r =>
    rw [hrun] at hpt
    cases hpt
    rfl

end Courses.MallocLab
