import Courses.SimpleDb.PoolContents
import Courses.SimpleDb.TwoPhaseLocking

/-!
# The cache of the buffer pool

`_pages` and `_pageids` of `BufferPool.java` through every sequence of calls: the queue
holds the keys of the map, each once, and no more than the pool has room for. `evictPage`
walks round the queue at most once; it stops at the first clean page, or leaves the queue
as it found it. No page that is dirty leaves the pool.
-/
set_option linter.unusedSectionVars false

namespace Courses.SimpleDb

open Courses.Lib

namespace BufferPool

variable {Tid : Type} [DecidableEq Tid]

/-! ### `evictPage` as a loop -/

/-- How a call of `evictPage` ends. -/
inductive EvictResult
  | evicted
  /-- `DbException("All dirty pages, failed to evict")` -/
  | allDirty
  /-- `DbException("Evicting page from an empty DB")` -/
  | emptyDb
  /-- `_pages` has no page for an element of the queue -/
  | nullPointer
  deriving DecidableEq

/-- At most `fuel` rounds of `while (!pageEvicted)`, from `cnt` on. -/
def evictRounds : ℕ → ℕ → BufferPool Tid → Option (EvictResult × BufferPool Tid)
  | 0, _, _ => none
  | fuel + 1, cnt, s =>
    if cnt = s.pageids.length then
      some (.allDirty, s)
    else
      match s.pageids with
      | [] => some (.emptyDb, s)
      | oldestPageId :: rest =>
        match s.pages.lookup oldestPageId with
        | none => some (.nullPointer, { s with pageids := rest })
        | some page =>
          match page.dirty with
          | some _ => evictRounds fuel (cnt + 1) { s with pageids := rest ++ [oldestPageId] }
          | none =>
            let s := ({ s with pageids := rest } : BufferPool Tid).flushPage oldestPageId
            some (.evicted, { s with pages := remove s.pages oldestPageId })

def IsClean (s : BufferPool Tid) (pid : HeapPageId) : Prop :=
  ∃ page, s.pages.lookup pid = some page ∧ page.dirty = none

def IsDirty (s : BufferPool Tid) (pid : HeapPageId) : Prop :=
  ∃ page, s.pages.lookup pid = some page ∧ page.dirty.isSome

/-- The loop that counts the rounds it has left is the loop that compares `cnt` with the size
of the queue. -/
theorem evictRounds_eq (n : ℕ) {fuel cnt : ℕ} {s : BufferPool Tid}
    (hcnt : cnt + n = s.pageids.length) (hfuel : n < fuel) :
    ∃ r, evictRounds fuel cnt s = some (r, (s.evictLoop n).1) ∧
      ((s.evictLoop n).2 = true ↔ r = .evicted) ∧
      ((∀ p ∈ s.pageids, s.IsDirty p) → r = .allDirty) := by
  induction n generalizing fuel cnt s with
  | zero =>
    obtain ⟨fuel, rfl⟩ := Nat.exists_eq_succ_of_ne_zero (Nat.ne_of_gt hfuel)
    exact ⟨.allDirty, if_pos hcnt, by simp [evictLoop], fun _ => rfl⟩
  | succ n ih =>
    obtain ⟨fuel, rfl⟩ := Nat.exists_eq_succ_of_ne_zero (Nat.ne_of_gt (Nat.zero_lt_of_lt hfuel))
    have hne : ¬ cnt = s.pageids.length := by omega
    unfold evictRounds evictLoop
    rw [if_neg hne]
    cases hqueue : s.pageids with
    | nil =>
      rw [hqueue] at hcnt
      exact absurd hcnt (by simp)
    | cons pid rest =>
      cases hpage : s.pages.lookup pid with
      | none =>
        refine ⟨.nullPointer, by simp [hpage], by simp [hpage], fun hall => ?_⟩
        obtain ⟨page, hsome, -⟩ := hall pid List.mem_cons_self
        rw [hpage] at hsome
        cases hsome
      | some page =>
        cases hdirty : page.dirty with
        | none =>
          refine ⟨.evicted, by simp [hpage, hdirty], by simp [hpage, hdirty], fun hall => ?_⟩
          obtain ⟨page', hsome, hdirty'⟩ := hall pid List.mem_cons_self
          rw [hpage] at hsome
          cases hsome
          simp [hdirty] at hdirty'
        | some tid =>
          have hsize : cnt + 1 + n = (rest ++ [pid]).length := by
            rw [hqueue] at hcnt
            simp only [List.length_append, List.length_cons, List.length_nil] at hcnt ⊢
            omega
          obtain ⟨r, hrounds, hiff, hall⟩ :=
            @ih fuel (cnt + 1) { s with pageids := rest ++ [pid] } hsize (by omega)
          simp only [hpage, hdirty]
          refine ⟨r, hrounds, hiff, fun hold => hall fun p hp => hold p ?_⟩
          simpa [or_comm] using hp

variable {env : Env Tid} {s s' : BufferPool Tid} {tid : Tid} {pid : HeapPageId}

/-! ### What `evictPage` does -/

/-- Dirty pages go round the queue. -/
theorem evictLoop_dirty {before rest : List HeapPageId} (hdirty : ∀ p ∈ before, s.IsDirty p)
    (hqueue : s.pageids = before ++ rest) (n : ℕ) :
    s.evictLoop (before.length + n) = { s with pageids := rest ++ before }.evictLoop n := by
  induction before generalizing s rest with
  | nil =>
    have hsame : ({ s with pageids := rest ++ [] } : BufferPool Tid) = s := by
      rw [List.append_nil, ← List.nil_append rest, ← hqueue]
    rw [hsame, List.length_nil, Nat.zero_add]
  | cons p before ih =>
    obtain ⟨page, hpage, hsome⟩ := hdirty p List.mem_cons_self
    obtain ⟨owner, howner⟩ := Option.isSome_iff_exists.1 hsome
    have hround : s.evictLoop ((p :: before).length + n) =
        { s with pageids := before ++ (rest ++ [p]) }.evictLoop (before.length + n) := by
      rw [List.length_cons, Nat.add_right_comm]
      conv_lhs => unfold evictLoop
      simp only [hqueue, List.cons_append, hpage, howner, List.append_assoc]
    have hrest := @ih { s with pageids := before ++ (rest ++ [p]) } (rest ++ [p])
      (fun q hq => hdirty q (List.mem_cons_of_mem p hq)) rfl
    rw [hround, hrest]
    simp

theorem evictLoop_clean {rest : List HeapPageId} (hclean : s.IsClean pid)
    (hqueue : s.pageids = pid :: rest) (n : ℕ) :
    s.evictLoop (n + 1) = ({ s with pages := remove s.pages pid, pageids := rest }, true) := by
  obtain ⟨page, hpage, hnone⟩ := hclean
  have hflush : ({ s with pageids := rest } : BufferPool Tid).flushPage pid =
      { s with pageids := rest } := by
    simp only [flushPage, hpage, hnone]
  unfold evictLoop
  simp only [hqueue, hpage, hnone, hflush]

theorem evictPage_clean {before after : List HeapPageId} (hdirty : ∀ p ∈ before, s.IsDirty p)
    (hclean : s.IsClean pid) (hqueue : s.pageids = before ++ pid :: after) :
    s.evictPage =
      ({ s with pages := remove s.pages pid, pageids := after ++ before }, true) := by
  have hlength : s.pageids.length = before.length + (after.length + 1) := by
    rw [hqueue, List.length_append, List.length_cons]
  have hstop := @evictLoop_clean _ _ { s with pageids := pid :: after ++ before } pid
    (after ++ before) hclean rfl after.length
  unfold evictPage
  rw [hlength, evictLoop_dirty hdirty hqueue, hstop]

theorem evictPage_dirty (hdirty : ∀ p ∈ s.pageids, s.IsDirty p) : s.evictPage = (s, false) := by
  have hround := @evictLoop_dirty _ _ s s.pageids [] hdirty (List.append_nil _).symm 0
  rw [Nat.add_zero, List.nil_append] at hround
  exact hround

/-! ### The queue and the map -/

/-- The queue holds the keys of the map, each once, and fits in the pool. -/
structure Cached (env : Env Tid) (s : BufferPool Tid) : Prop where
  keys : s.pageids.Perm (s.pages.map Prod.fst)
  nodup : s.pageids.Nodup
  room : (s.pageids.length : ℤ) ≤ env.maxPages

theorem cached_init (hmax : 0 ≤ env.maxPages) (tables : ℤ → List HeapPage) :
    Cached env (init tables) := ⟨List.Perm.refl _, List.nodup_nil, hmax⟩

theorem Cached.of_keys (h : s.Cached env) (hkeys : s'.pages.map Prod.fst = s.pages.map Prod.fst)
    (hqueue : s'.pageids = s.pageids) : s'.Cached env := by
  refine ⟨?_, ?_, ?_⟩
  · rw [hqueue, hkeys]
    exact h.keys
  · rw [hqueue]
    exact h.nodup
  · rw [hqueue]
    exact h.room

/-- A page that is in the queue is clean or dirty. -/
theorem Cached.clean_or_dirty (h : s.Cached env) (hmem : pid ∈ s.pageids) :
    s.IsClean pid ∨ s.IsDirty pid := by
  have hkey : (s.pages.lookup pid).isSome := mem_keys_iff.1 (h.keys.mem_iff.1 hmem)
  obtain ⟨page, hpage⟩ := Option.isSome_iff_exists.1 hkey
  cases hdirty : page.dirty with
  | none => exact .inl ⟨page, hpage, hdirty⟩
  | some owner => exact .inr ⟨page, hpage, by rw [hdirty]; rfl⟩

theorem not_isClean_of_isDirty (h : s.IsDirty pid) : ¬ s.IsClean pid := by
  obtain ⟨page, hpage, hsome⟩ := h
  rintro ⟨page', hpage', hnone⟩
  rw [hpage] at hpage'
  cases hpage'
  simp [hnone] at hsome

/-- The first clean page of the queue, if there is one. -/
theorem Cached.first_clean (h : s.Cached env) :
    (∃ before pid after, s.pageids = before ++ pid :: after ∧ s.IsClean pid ∧
      ∀ p ∈ before, s.IsDirty p) ∨ ∀ p ∈ s.pageids, s.IsDirty p := by
  have hcases : ∀ p ∈ s.pageids, s.IsClean p ∨ s.IsDirty p := fun p hp => h.clean_or_dirty hp
  generalize s.pageids = queue at hcases
  induction queue with
  | nil => exact .inr fun p hp => by cases hp
  | cons p queue ih =>
    obtain hclean | hdirty := hcases p List.mem_cons_self
    · exact .inl ⟨[], p, queue, rfl, hclean, fun q hq => by cases hq⟩
    · obtain ⟨before, pid, after, rfl, hclean, hbefore⟩ | hall :=
        ih fun q hq => hcases q (List.mem_cons_of_mem p hq)
      · refine .inl ⟨p :: before, pid, after, rfl, hclean, fun q hq => ?_⟩
        obtain rfl | hq := List.mem_cons.1 hq
        · exact hdirty
        · exact hbefore q hq
      · refine .inr fun q hq => ?_
        obtain rfl | hq := List.mem_cons.1 hq
        · exact hdirty
        · exact hall q hq

theorem keys_remove (m : List (HeapPageId × Page Tid)) (k : HeapPageId) :
    (remove m k).map Prod.fst = (m.map Prod.fst).filter (· ≠ k) := by
  simp only [remove, List.filter_map, Function.comp_def]

/-- Taking a page out of both. -/
theorem Cached.evict (h : s.Cached env) {before after : List HeapPageId}
    (hqueue : s.pageids = before ++ pid :: after) :
    Cached env { s with pages := remove s.pages pid, pageids := after ++ before } ∧
      ((after ++ before).length : ℤ) + 1 ≤ env.maxPages := by
  have hperm : (pid :: (after ++ before)).Perm s.pageids := by
    rw [hqueue, ← List.cons_append]
    exact List.perm_append_comm
  have hnodup := hperm.nodup_iff.2 h.nodup
  have hlength := hperm.length_eq
  have hroom := h.room
  rw [← hlength, List.length_cons] at hroom
  refine ⟨⟨?_, hnodup.of_cons, ?_⟩, by exact_mod_cast hroom⟩
  · have hfilter : (after ++ before).filter (· ≠ pid) = after ++ before := by
      refine List.filter_eq_self.2 fun q hq => ?_
      have hne : q ≠ pid := fun heq => (List.nodup_cons.1 hnodup).1 (heq ▸ hq)
      simpa using hne
    have hkeys := (hperm.trans h.keys).filter (· ≠ pid)
    rw [List.filter_cons_of_neg (by simp), hfilter] at hkeys
    simp only [keys_remove]
    exact hkeys
  · push_cast at hroom ⊢
    omega

theorem Cached.evictPage (h : s.Cached env) :
    s.evictPage.1.Cached env ∧
      (s.evictPage.2 = true → (s.evictPage.1.pageids.length : ℤ) + 1 ≤ env.maxPages) := by
  obtain ⟨before, pid, after, hqueue, hclean, hbefore⟩ | hall := h.first_clean
  · rw [evictPage_clean hbefore hclean hqueue]
    exact ⟨(h.evict hqueue).1, fun _ => (h.evict hqueue).2⟩
  · rw [evictPage_dirty hall]
    exact ⟨h, fun hfalse => absurd hfalse Bool.false_ne_true⟩

/-! ### The calls keep them in step -/

theorem keys_put_mem {m : List (HeapPageId × Page Tid)} {k : HeapPageId} {v : Page Tid}
    (h : (m.lookup k).isSome) : (put m k v).map Prod.fst = m.map Prod.fst := by
  unfold put
  rw [if_pos h, List.map_map]
  refine List.map_congr_left fun e _ => ?_
  by_cases he : e.1 = k
  · simp [he]
  · simp [he]

theorem keys_put_new {m : List (HeapPageId × Page Tid)} {k : HeapPageId} {v : Page Tid}
    (h : m.lookup k = none) : (put m k v).map Prod.fst = m.map Prod.fst ++ [k] := by
  unfold put
  rw [if_neg (by simp [h])]
  simp

theorem Cached.loadPage (h : s.Cached env) (pid : HeapPageId) :
    (s.loadPage env pid).1.Cached env := by
  unfold BufferPool.loadPage
  split
  · exact h
  · rename_i hnone
    -- after making room there is a place left
    have hroom : (s.makeRoom env).1.Cached env ∧ ((s.makeRoom env).2 = true →
        ((s.makeRoom env).1.pageids.length : ℤ) + 1 ≤ env.maxPages) := by
      unfold makeRoom
      split
      · exact h.evictPage
      · rename_i hfull
        have hle := h.room
        exact ⟨h, fun _ => by simp only; omega⟩
    have hold := (makeRoom_pages env s).2.1
    split
    · rename_i s₁ heq
      rw [heq] at hroom
      exact hroom.1
    · rename_i s₁ heq
      rw [heq] at hroom hold
      obtain ⟨hcached, hplace⟩ := hroom
      have hplace := hplace rfl
      split
      · exact hcached
      · have hnew : s₁.pages.lookup pid = none := by
          cases hpage : s₁.pages.lookup pid with
          | none => rfl
          | some page =>
            have := hold pid page hpage
            rw [hnone] at this
            cases this
        have hmem : pid ∉ s₁.pageids := by
          intro hmem
          have := mem_keys_iff.1 (hcached.keys.mem_iff.1 hmem)
          rw [hnew] at this
          cases this
        refine ⟨?_, ?_, ?_⟩
        · simp only [keys_put_new hnew]
          exact hcached.keys.append_right [pid]
        · simp only [← List.concat_eq_append]
          exact hcached.nodup.concat hmem
        · simp only [List.length_append, List.length_singleton, Nat.cast_add, Nat.cast_one]
          exact hplace

theorem flushPage_keys (s : BufferPool Tid) (pid : HeapPageId) :
    (s.flushPage pid).pages.map Prod.fst = s.pages.map Prod.fst ∧
      (s.flushPage pid).pageids = s.pageids := by
  unfold flushPage
  split
  · exact ⟨rfl, rfl⟩
  · rename_i page hpage
    split
    · exact ⟨rfl, rfl⟩
    · exact ⟨keys_put_mem (by rw [hpage]; rfl), rfl⟩

theorem flushPages_keys (tid : Tid) (pids : List HeapPageId) (s : BufferPool Tid) :
    (s.flushPages tid pids).pages.map Prod.fst = s.pages.map Prod.fst ∧
      (s.flushPages tid pids).pageids = s.pageids := by
  induction pids generalizing s with
  | nil => exact ⟨rfl, rfl⟩
  | cons pid pids ih =>
    simp only [flushPages, List.foldl_cons]
    split
    · obtain ⟨hkeys, hqueue⟩ := ih (s.flushPage pid)
      obtain ⟨hkeys', hqueue'⟩ := flushPage_keys s pid
      exact ⟨hkeys.trans hkeys', hqueue.trans hqueue'⟩
    · exact ih s

theorem rereadPages_keys (tid : Tid) (pids : List HeapPageId) {s : BufferPool Tid}
    (hpids : ∀ p ∈ pids, p ∈ s.pages.map Prod.fst) :
    (s.rereadPages tid pids).1.pages.map Prod.fst = s.pages.map Prod.fst ∧
      (s.rereadPages tid pids).1.pageids = s.pageids := by
  induction pids generalizing s with
  | nil => exact ⟨rfl, rfl⟩
  | cons pid pids ih =>
    unfold rereadPages
    split
    · split
      · exact ⟨rfl, rfl⟩
      · rename_i heap _
        have hmem := mem_keys_iff.1 (hpids pid List.mem_cons_self)
        have hkeys : (put s.pages pid (⟨heap, none⟩ : Page Tid)).map Prod.fst =
            s.pages.map Prod.fst := keys_put_mem hmem
        obtain ⟨hkeys', hqueue⟩ := @ih { s with pages := put s.pages pid ⟨heap, none⟩ }
          (fun p hp => by
            rw [hkeys]
            exact hpids p (List.mem_cons_of_mem pid hp))
        exact ⟨hkeys'.trans hkeys, hqueue⟩
    · exact ih fun p hp => hpids p (List.mem_cons_of_mem pid hp)

theorem Cached.locks (h : s.Cached env) {es : List (LockEvent Tid HeapPageId)}
    (hs : s.locks env es = some s') : s'.Cached env := by
  obtain ⟨sys, -, rfl⟩ := locks_eq hs
  exact h.of_keys rfl rfl

theorem Cached.settle (h : s.Cached env) (tid : Tid) : (s.settle tid).Cached env := by
  unfold BufferPool.settle
  split
  · exact h.of_keys rfl rfl
  · exact h

theorem Cached.acquireLock (h : s.Cached env) {perm : Permissions} {c : Call}
    (hs : s.acquireLock env tid pid perm c = some s') : s'.Cached env := by
  obtain ⟨s₁, hlocks, rfl⟩ := Option.map_eq_some_iff.1 hs
  refine Cached.settle ?_ tid
  exact (h.locks hlocks).of_keys rfl rfl

theorem Cached.addTuple (h : s.Cached env) {tableId : ℤ} {t : Tuple} {ind : ℕ}
    (hs : s.addTuple env tid tableId t ind = some s') : s'.Cached env := by
  unfold BufferPool.addTuple at hs
  split at hs
  · exact h.acquireLock hs
  · dsimp only at hs
    split at hs
    · refine Cached.acquireLock ?_ hs
      exact h.of_keys rfl rfl
    · cases hs
      exact h.of_keys rfl rfl

theorem Cached.visit (h : s.Cached env) {page : Page Tid} {c : Call}
    (hpage : s.pages.lookup pid = some page) (hs : s.visit env tid pid page c = some s') :
    s'.Cached env := by
  have hkeys (v : Page Tid) : (put s.pages pid v).map Prod.fst = s.pages.map Prod.fst :=
    keys_put_mem (by rw [hpage]; rfl)
  cases c with
  | getPage =>
    cases hs
    exact h.of_keys rfl rfl
  | deleteTuple t =>
    simp only [BufferPool.visit] at hs
    split at hs
    · cases hs
      exact h.of_keys (hkeys _) rfl
    · cases hs
      exact h.of_keys rfl rfl
  | insertTuple tableId t ind fresh =>
    simp only [BufferPool.visit] at hs
    split at hs
    · split at hs
      · cases hs
        exact h.of_keys rfl rfl
      · obtain ⟨s₁, hrel, rfl⟩ := Option.map_eq_some_iff.1 hs
        refine Cached.of_keys (Cached.locks ?_ hrel) rfl rfl
        exact h.of_keys (hkeys _) rfl
    · obtain ⟨s₁, hrel, hs⟩ := Option.bind_eq_some_iff.1 hs
      have h₁ := h.locks hrel
      split at hs
      · cases hs
        exact h₁.of_keys rfl rfl
      · exact h₁.addTuple hs

theorem Cached.transactionComplete (h : s.Cached env) {commit : Bool}
    (hs : s.transactionComplete env tid commit = some s') : s'.Cached env := by
  unfold BufferPool.transactionComplete at hs
  split at hs
  · obtain ⟨hkeys, hqueue⟩ := flushPages_keys tid (s.pages.map Prod.fst) s
    refine Cached.locks ?_ hs
    exact h.of_keys hkeys hqueue
  · obtain ⟨hkeys, hqueue⟩ := rereadPages_keys (s := s) tid (s.pages.map Prod.fst) fun _ hp => hp
    split at hs
    · rename_i s₁ heq
      rw [heq] at hkeys hqueue
      refine Cached.locks ?_ hs
      exact h.of_keys hkeys hqueue
    · rename_i s₁ heq
      rw [heq] at hkeys hqueue
      cases hs
      exact h.of_keys hkeys hqueue

theorem Cached.step (h : s.Cached env) {e : PoolEvent Tid} (hs : s.step env e = some s') :
    s'.Cached env := by
  cases e with
  | getPage tid pid perm =>
    simp only [BufferPool.step] at hs
    split at hs
    · exact h.acquireLock hs
    · cases hs
  | insertTuple tid tableId t =>
    simp only [BufferPool.step] at hs
    split at hs
    · exact h.addTuple hs
    · cases hs
  | deleteTuple tid t =>
    simp only [BufferPool.step] at hs
    split at hs
    · split at hs
      · exact h.acquireLock hs
      · cases hs
    · cases hs
  | wake tid => exact h.locks hs
  | resume tid =>
    obtain ⟨s₁, hlocks, rfl⟩ := Option.map_eq_some_iff.1 hs
    exact (h.locks hlocks).settle tid
  | proceed tid =>
    simp only [BufferPool.step] at hs
    split at hs
    · rename_i pid c _ _
      obtain ⟨s₁, hlocks, hs⟩ := Option.bind_eq_some_iff.1 hs
      have hload := (h.locks hlocks).loadPage pid
      have hin := (loadPage_pages env s₁ pid).2.2.2
      split at hs
      · rename_i s₂ heq
        rw [heq] at hload
        cases hs
        exact hload.of_keys rfl rfl
      · rename_i s₂ page heq
        rw [heq] at hload hin
        exact hload.visit (hin page rfl) hs
    · cases hs
  | transactionComplete tid commit =>
    simp only [BufferPool.step] at hs
    split at hs
    · exact h.transactionComplete hs
    · cases hs

/-! ### Every run -/

/-- The calls of a pool, `flushAllPages` among them. A flush that ends with an `IOException`
has gone through the first `done` pages. -/
inductive CacheEvent (Tid : Type)
  | pool (e : PoolEvent Tid)
  | flushAllPages (done : ℕ)
  | commitFails (tid : Tid) (done : ℕ)

def flushAllPages (s : BufferPool Tid) (done : ℕ) : BufferPool Tid :=
  ((s.pages.map Prod.fst).take done).foldl flushPage s

def cacheStep (env : Env Tid) (s : BufferPool Tid) : CacheEvent Tid → Option (BufferPool Tid)
  | .pool e => s.step env e
  | .flushAllPages done => some (s.flushAllPages done)
  | .commitFails tid done =>
    match s.call tid with
    | none => some (s.flushPages tid ((s.pages.map Prod.fst).take done))
    | some _ => none

theorem foldl_flushPage_keys (pids : List HeapPageId) (s : BufferPool Tid) :
    (pids.foldl flushPage s).pages.map Prod.fst = s.pages.map Prod.fst ∧
      (pids.foldl flushPage s).pageids = s.pageids := by
  induction pids generalizing s with
  | nil => exact ⟨rfl, rfl⟩
  | cons pid pids ih =>
    obtain ⟨hkeys, hqueue⟩ := ih (s.flushPage pid)
    obtain ⟨hkeys', hqueue'⟩ := flushPage_keys s pid
    exact ⟨hkeys.trans hkeys', hqueue.trans hqueue'⟩

theorem Cached.cacheStep (h : s.Cached env) {e : CacheEvent Tid}
    (hs : s.cacheStep env e = some s') : s'.Cached env := by
  cases e with
  | pool e => exact h.step hs
  | flushAllPages done =>
    cases hs
    obtain ⟨hkeys, hqueue⟩ := foldl_flushPage_keys ((s.pages.map Prod.fst).take done) s
    exact h.of_keys hkeys hqueue
  | commitFails tid done =>
    simp only [BufferPool.cacheStep] at hs
    split at hs
    · cases hs
      obtain ⟨hkeys, hqueue⟩ := flushPages_keys tid ((s.pages.map Prod.fst).take done) s
      exact h.of_keys hkeys hqueue
    · cases hs

/-- The cache in every state that calls can reach. The queue holds exactly the keys of the map,
each once, and at most as many as the pool has room for. `evictPage` ends within one round
of the queue: it takes out one page, the first clean one, if there is a clean page, and throws
with the pool as it was if there is none. -/
theorem bufferPool_cache {env : Env Tid} (hmax : 0 ≤ env.maxPages) {tables : ℤ → List HeapPage}
    {s : BufferPool Tid} (h : Reachable (cacheStep env) (init tables) s) :
    (s.pageids.Perm (s.pages.map Prod.fst) ∧ s.pageids.Nodup ∧
      (s.pageids.length : ℤ) ≤ env.maxPages) ∧
    ∀ fuel, s.pageids.length < fuel →
      ((∃ pid, s.IsClean pid) → ∃ before pid after, s.pageids = before ++ pid :: after ∧
        s.IsClean pid ∧ (∀ p ∈ before, s.IsDirty p) ∧
        evictRounds fuel 0 s =
          some (.evicted, { s with pages := remove s.pages pid, pageids := after ++ before })) ∧
      ((¬ ∃ pid, s.IsClean pid) → evictRounds fuel 0 s = some (.allDirty, s)) := by
  have hcached : s.Cached env := h.invariant (I := Cached env) (cached_init hmax tables)
    fun _ _ _ hc _ hs => hc.cacheStep hs
  refine ⟨⟨hcached.keys, hcached.nodup, hcached.room⟩, fun fuel hfuel => ?_⟩
  obtain ⟨r, hrounds, hiff, halldirty⟩ := evictRounds_eq s.pageids.length (Nat.zero_add _) hfuel
  change evictRounds fuel 0 s = some (r, s.evictPage.1) at hrounds
  change s.evictPage.2 = true ↔ r = .evicted at hiff
  obtain ⟨before, pid, after, hqueue, hclean, hbefore⟩ | hall := hcached.first_clean
  · have hevict := evictPage_clean hbefore hclean hqueue
    rw [hevict] at hrounds hiff
    rw [hiff.1 rfl] at hrounds
    exact ⟨fun _ => ⟨before, pid, after, hqueue, hclean, hbefore, hrounds⟩,
      fun hno => absurd ⟨pid, hclean⟩ hno⟩
  · have hevict := evictPage_dirty hall
    rw [hevict, halldirty hall] at hrounds
    refine ⟨fun hsome => ?_, fun _ => hrounds⟩
    -- a clean page would be in the queue
    obtain ⟨pid, page, hpage, hnone⟩ := hsome
    have hmem := hcached.keys.mem_iff.2 (mem_keys hpage)
    exact absurd ⟨page, hpage, hnone⟩ (not_isClean_of_isDirty (hall pid hmem))

/-- Transaction 1 deletes the row of a page, and all pages are flushed: the page is clean and
can be evicted. -/
theorem bufferPool_cache_flushed :
    ∃ s, Reachable (cacheStep wideEnv) (init (wideTables (some wideTuple))) s ∧
      ∃ before pid after, s.pageids = before ++ pid :: after ∧
        evictRounds (s.pageids.length + 1) 0 s =
          some (.evicted, { s with pages := remove s.pages pid, pageids := after ++ before }) := by
  have hrun : (runWhile (cacheStep wideEnv) (fun _ _ => true) (init (wideTables (some wideTuple)))
      [.pool (.deleteTuple 1 wideTuple), .pool (.proceed 1), .flushAllPages 1]).any
      (fun s => (s.pages.lookup ⟨0, 0⟩).any fun page => page.dirty.isNone) = true := by
    decide +kernel
  obtain ⟨s, hs, hcheck⟩ := Option.any_eq_true _ _ |>.mp hrun
  obtain ⟨page, hpage, hnone⟩ := Option.any_eq_true _ _ |>.mp hcheck
  have hclean : s.IsClean ⟨0, 0⟩ := ⟨page, hpage, Option.isNone_iff_eq_none.1 hnone⟩
  have hreach := reachable_runWhile _ hs
  have hcache := bufferPool_cache (by decide) hreach
  obtain ⟨before, pid, after, hqueue, -, -, hrounds⟩ :=
    (hcache.2 _ (Nat.lt_succ_self _)).1 ⟨⟨0, 0⟩, hclean⟩
  exact ⟨s, hreach, before, pid, after, hqueue, hrounds⟩

end BufferPool

end Courses.SimpleDb
