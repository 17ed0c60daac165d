import Courses.SimpleDb.PoolLocks

/-!
# Strict two-phase locking

A transaction that has changed a page is to keep its exclusive lock on the page
until it completes. `deleteTuple` does; `insertTuple` does not, since
`HeapFile.tryAddTupleToPage` releases every page it has tried. The locks hold in
every run in which no insertion places its tuple or tries a page its transaction
has already changed.
-/
set_option linter.unusedSectionVars false

namespace Courses.SimpleDb

open Courses.Lib

/-- The calls that change pages. -/
def Call.Writes : Call → Prop
  | .getPage => False
  | .insertTuple _ _ _ _ => True
  | .deleteTuple _ => True

namespace BufferPool

variable {Tid : Type} [DecidableEq Tid] {env : Env Tid} {s s' : BufferPool Tid} {tid : Tid}

/-! ## What the operations on pages leave alone -/

theorem flushPage_frame (s : BufferPool Tid) (pid : HeapPageId) :
    (s.flushPage pid).sys = s.sys ∧ (s.flushPage pid).call = s.call ∧
      (s.flushPage pid).store = s.store ∧ (s.flushPage pid).numPages = s.numPages := by
  unfold flushPage
  split
  · exact ⟨rfl, rfl, rfl, rfl⟩
  · split <;> exact ⟨rfl, rfl, rfl, rfl⟩

theorem evictLoop_frame (n : ℕ) (s : BufferPool Tid) :
    (s.evictLoop n).1.sys = s.sys ∧ (s.evictLoop n).1.call = s.call ∧
      (s.evictLoop n).1.store = s.store ∧ (s.evictLoop n).1.numPages = s.numPages := by
  induction n generalizing s with
  | zero => exact ⟨rfl, rfl, rfl, rfl⟩
  | succ n ih =>
    unfold evictLoop
    split
    · exact ⟨rfl, rfl, rfl, rfl⟩
    · next pid rest _ =>
      split
      · exact ⟨rfl, rfl, rfl, rfl⟩
      · split
        · exact ih _
        · exact flushPage_frame _ pid

theorem makeRoom_frame (s : BufferPool Tid) :
    (s.makeRoom env).1.sys = s.sys ∧ (s.makeRoom env).1.call = s.call ∧
      (s.makeRoom env).1.store = s.store ∧ (s.makeRoom env).1.numPages = s.numPages := by
  unfold makeRoom
  split_ifs
  · exact evictLoop_frame _ s
  · exact ⟨rfl, rfl, rfl, rfl⟩

theorem loadPage_frame (env : Env Tid) (s : BufferPool Tid) (pid : HeapPageId) :
    (s.loadPage env pid).1.sys = s.sys ∧ (s.loadPage env pid).1.call = s.call ∧
      (s.loadPage env pid).1.store = s.store ∧ (s.loadPage env pid).1.numPages = s.numPages := by
  have hroom : (s.makeRoom env).1.sys = s.sys ∧ (s.makeRoom env).1.call = s.call ∧
      (s.makeRoom env).1.store = s.store ∧ (s.makeRoom env).1.numPages = s.numPages :=
    s.makeRoom_frame
  unfold loadPage
  split
  · exact ⟨rfl, rfl, rfl, rfl⟩
  · split
    · next hr =>
      rw [hr] at hroom
      exact hroom
    · next hr =>
      rw [hr] at hroom
      split <;> exact hroom

/-- Loading a page reads nothing of the lock manager. -/
theorem flushPage_sys (s : BufferPool Tid) (sys : LockSystem Tid HeapPageId) (pid : HeapPageId) :
    { s with sys := sys }.flushPage pid = { s.flushPage pid with sys := sys } := by
  unfold flushPage
  dsimp only
  split
  · rfl
  · split <;> rfl

theorem evictLoop_sys (n : ℕ) (s : BufferPool Tid) (sys : LockSystem Tid HeapPageId) :
    { s with sys := sys }.evictLoop n = ({ (s.evictLoop n).1 with sys := sys },
      (s.evictLoop n).2) := by
  induction n generalizing s with
  | zero => rfl
  | succ n ih =>
    unfold evictLoop
    dsimp only
    split
    · rfl
    · next pid rest _ =>
      split
      · rfl
      · split
        · exact ih { s with pageids := rest ++ [pid] }
        · rw [show ({ s with sys := sys, pageids := rest } : BufferPool Tid) =
            { ({ s with pageids := rest } : BufferPool Tid) with sys := sys } from rfl,
            flushPage_sys]

theorem loadPage_sys (s : BufferPool Tid) (sys : LockSystem Tid HeapPageId) (pid : HeapPageId) :
    { s with sys := sys }.loadPage env pid = ({ (s.loadPage env pid).1 with sys := sys },
      (s.loadPage env pid).2) := by
  have hroom : { s with sys := sys }.makeRoom env =
      ({ (s.makeRoom env).1 with sys := sys }, (s.makeRoom env).2) := by
    unfold makeRoom evictPage
    dsimp only
    split
    · exact evictLoop_sys _ s sys
    · rfl
  unfold loadPage
  dsimp only
  split
  · rfl
  · rw [hroom]
    rcases s.makeRoom env with ⟨r, _ | _⟩
    · rfl
    · dsimp only
      unfold readPage
      dsimp only
      split <;> rfl

theorem flushPages_frame (tid : Tid) (pids : List HeapPageId) (s : BufferPool Tid) :
    (s.flushPages tid pids).sys = s.sys ∧ (s.flushPages tid pids).call = s.call ∧
      (s.flushPages tid pids).store = s.store ∧
      (s.flushPages tid pids).numPages = s.numPages := by
  induction pids generalizing s with
  | nil => exact ⟨rfl, rfl, rfl, rfl⟩
  | cons pid pids ih =>
    unfold flushPages at ih ⊢
    rw [List.foldl_cons]
    split_ifs
    · obtain ⟨h1, h2, h3, h4⟩ := ih (s.flushPage pid)
      obtain ⟨g1, g2, g3, g4⟩ := s.flushPage_frame pid
      exact ⟨h1.trans g1, h2.trans g2, h3.trans g3, h4.trans g4⟩
    · exact ih s

theorem rereadPages_frame (tid : Tid) (pids : List HeapPageId) (s : BufferPool Tid) :
    (s.rereadPages tid pids).1.sys = s.sys ∧ (s.rereadPages tid pids).1.call = s.call ∧
      (s.rereadPages tid pids).1.store = s.store ∧
      (s.rereadPages tid pids).1.numPages = s.numPages := by
  induction pids generalizing s with
  | nil => exact ⟨rfl, rfl, rfl, rfl⟩
  | cons pid pids ih =>
    unfold rereadPages
    split_ifs
    · split
      · exact ⟨rfl, rfl, rfl, rfl⟩
      · exact ih _
    · exact ih s

/-! ## The invariant -/

/-- Every pending write has its lock, and every call that is going to write has
asked for one. -/
structure LockedWrites (s : BufferPool Tid) : Prop where
  exclusive : ∀ p, s.sys.lm.Exclusive p
  acquired : ∀ x c p, s.call x = some c → c.Writes → s.sys.pc x = .acquired p →
    s.sys.lm.ownerTrans p = some x
  pending : ∀ x c p perm, s.call x = some c → c.Writes →
    LockSystem.Pending (s.sys.pc x) p perm → perm = .readWrite
  owner : ∀ w ∈ s.store.pending, s.sys.lm.ownerTrans w.key = some w.tid

/-- The invariant reads the locks, the calls and the pending writes only. -/
theorem LockedWrites.congr (h : s.LockedWrites) (hsys : s'.sys = s.sys) (hcall : s'.call = s.call)
    (hstore : s'.store.pending ⊆ s.store.pending) : s'.LockedWrites where
  exclusive := hsys ▸ h.exclusive
  acquired := by rw [hsys, hcall]; exact h.acquired
  pending := by rw [hsys, hcall]; exact h.pending
  owner w hw := hsys ▸ h.owner w (hstore hw)

theorem LockedWrites.endCall (h : s.LockedWrites) (tid : Tid) : (s.endCall tid).LockedWrites where
  exclusive := h.exclusive
  acquired x c p hc := by
    by_cases hx : x = tid
    · subst hx
      simp [BufferPool.endCall] at hc
    · exact h.acquired x c p (by simpa [BufferPool.endCall, hx] using hc)
  pending x c p perm hc := by
    by_cases hx : x = tid
    · subst hx
      simp [BufferPool.endCall] at hc
    · exact h.pending x c p perm (by simpa [BufferPool.endCall, hx] using hc)
  owner := h.owner

/-- A run of the lock manager for `tid` that gives up no page `tid` has changed. -/
theorem LockedWrites.frame (h : s.LockedWrites) {gone : HeapPageId → Prop}
    (hf : LockSystem.Frame tid gone s.sys s'.sys) (hx : ∀ p, s'.sys.lm.Exclusive p)
    (hcall : ∀ x, x ≠ tid → s'.call x = s.call x) (hstore : s'.store.pending = s.store.pending)
    (hgone : ∀ w ∈ s.store.pending, w.tid = tid → ¬ gone w.key)
    (hself : ∀ c, s'.call tid = some c → c.Writes →
      (∀ p, s'.sys.pc tid = .acquired p → s'.sys.lm.ownerTrans p = some tid) ∧
      ∀ p perm, LockSystem.Pending (s'.sys.pc tid) p perm → perm = .readWrite) :
    s'.LockedWrites where
  exclusive := hx
  acquired x c p hc hw hp := by
    by_cases hxt : x = tid
    · subst hxt
      exact (hself c hc hw).1 p hp
    · rw [hcall x hxt] at hc
      exact hf.owner x p (fun h => absurd h hxt)
        (h.acquired x c p hc hw (hf.acquired x p hxt hp))
  pending x c p perm hc hw hp := by
    by_cases hxt : x = tid
    · subst hxt
      exact (hself c hc hw).2 p perm hp
    · rw [hcall x hxt] at hc
      exact h.pending x c p perm hc hw (hf.pending x p perm hxt hp)
  owner w hw := by
    rw [hstore] at hw
    exact hf.owner w.tid w.key (hgone w hw) (h.owner w hw)

/-- The pass of the acquire loop of a call that asks for a write lock if it writes. -/
theorem LockedWrites.enter (h : s.LockedWrites) {pid : HeapPageId} {perm : Permissions}
    {deps : List Tid} {c : Call} (hperm : c.Writes → perm = .readWrite)
    (hsys : s'.sys = s.sys.enter env.closesCycle tid pid perm deps)
    (hcall : s'.call = Function.update s.call tid (some c)) (hstore : s'.store = s.store) :
    s'.LockedWrites := by
  have hf : LockSystem.Frame tid (fun _ => False) s.sys s'.sys := by
    rw [hsys]
    exact LockSystem.frame_enter h.exclusive pid perm deps
  refine h.frame hf ?_ ?_ (by rw [hstore]) (fun _ _ _ h => h) ?_
  · intro p
    rw [hsys, LockSystem.enter_lm]
    exact LockManager.tryAquire_exclusive h.exclusive tid pid perm deps p
  · intro x hx
    rw [hcall, Function.update_of_ne hx]
  · intro c' hc hw
    rw [hcall, Function.update_self, Option.some.injEq] at hc
    subst hc
    rw [hsys]
    refine ⟨fun p hp => (LockSystem.enter_acquired hp).2.2 (hperm hw), fun p perm' hp => ?_⟩
    exact (LockSystem.enter_pending hp).2.1.trans (hperm hw)

theorem LockedWrites.settle (h : s.LockedWrites) (tid : Tid) : (s.settle tid).LockedWrites := by
  unfold BufferPool.settle
  split_ifs
  · exact h.endCall tid
  · exact h

theorem LockedWrites.acquireLock (h : s.LockedWrites) {pid : HeapPageId} {perm : Permissions}
    {c : Call} (hperm : c.Writes → perm = .readWrite)
    (hs : s.acquireLock env tid pid perm c = some s') : s'.LockedWrites := by
  obtain ⟨t, ht, rfl⟩ := Option.map_eq_some_iff.mp hs
  obtain ⟨sys, hrun, rfl⟩ := locks_eq ht
  have hstep := LockSystem.runWhile_singleton hrun
  simp only [LockSystem.step] at hstep
  split at hstep
  · cases hstep
    refine LockedWrites.settle ?_ tid
    exact h.enter hperm rfl rfl rfl
  · cases hstep

theorem LockedWrites.addTuple (h : s.LockedWrites) {tableId : ℤ} {t : Tuple} {ind : ℕ}
    (hs : s.addTuple env tid tableId t ind = some s') : s'.LockedWrites := by
  unfold BufferPool.addTuple at hs
  split_ifs at hs
  · exact h.acquireLock (fun _ => rfl) hs
  · dsimp only at hs
    split at hs
    · refine LockedWrites.acquireLock ?_ (fun _ => rfl) hs
      exact h.congr rfl rfl fun _ hw => hw
    · cases hs
      refine LockedWrites.endCall ?_ tid
      exact h.congr rfl rfl fun _ hw => hw

theorem LockedWrites.releasePage (h : s.LockedWrites) {pid : HeapPageId}
    (hown : ∀ w ∈ s.store.pending, w.tid = tid → w.key ≠ pid)
    (hs : s.releasePage env tid pid = some s') : s'.LockedWrites := by
  obtain ⟨sys, rfl, hf, hx, hidle, _⟩ := releasePage_frame h.exclusive hs
  refine h.frame hf hx (fun _ _ => rfl) rfl hown ?_
  intro c _ _
  rw [hidle]
  exact ⟨nofun, nofun⟩

/-- An insertion that is about to visit its page will not place its tuple there,
and its transaction has not changed the page before. -/
def KeepsLocks (env : Env Tid) (s : BufferPool Tid) : PoolEvent Tid → Prop
  | .proceed tid =>
    match s.sys.pc tid, s.call tid with
    | .acquired pid, some (.insertTuple _ t _ _) =>
      (∀ page ∈ (s.loadPage env pid).2, (page.heap.addTuple t).isOk = false) ∧
        ∀ w ∈ s.store.pending, w.tid = tid → w.key ≠ pid
    | _, _ => True
  | _ => True

/-- The step of a thread that has its lock: the record, the page, and the visit. -/
theorem proceed_cases (hs : s.step env (.proceed tid) = some s') :
    ∃ pid c, s.sys.pc tid = .acquired pid ∧ s.call tid = some c ∧
      let s₁ : BufferPool Tid := { (s.loadPage env pid).1 with sys := { s.sys with
        lm := s.sys.lm.record tid pid, pc := Function.update s.sys.pc tid .idle } }
      ((s.loadPage env pid).2 = none ∧ s' = s₁.endCall tid) ∨
        ∃ page, (s.loadPage env pid).2 = some page ∧ s₁.visit env tid pid page c = some s' := by
  simp only [step] at hs
  split at hs
  · next pid c hpc hcall =>
    refine ⟨pid, c, hpc, hcall, ?_⟩
    obtain ⟨t, ht, hrest⟩ := Option.bind_eq_some_iff.mp hs
    obtain ⟨sys, hrun, rfl⟩ := locks_eq ht
    have hrec := LockSystem.runWhile_singleton hrun
    simp only [LockSystem.step, hpc, Option.some.injEq] at hrec
    subst hrec
    rw [loadPage_sys] at hrest
    cases hp : (s.loadPage env pid).2 with
    | none =>
      rw [hp] at hrest
      exact .inl ⟨rfl, (Option.some.inj hrest).symm⟩
    | some page =>
      rw [hp] at hrest
      exact .inr ⟨page, rfl, hrest⟩
  · cases hs

/-- Recording the lock and loading the page. -/
theorem LockedWrites.load (h : s.LockedWrites) {pid : HeapPageId} :
    ({ (s.loadPage env pid).1 with sys := { s.sys with
        lm := s.sys.lm.record tid pid, pc := Function.update s.sys.pc tid .idle } } :
      BufferPool Tid).LockedWrites := by
  obtain ⟨_, hcall, hstore, _⟩ := loadPage_frame env s pid
  have hf : LockSystem.Frame tid (fun _ => False) s.sys { s.sys with
      lm := s.sys.lm.record tid pid, pc := Function.update s.sys.pc tid .idle } :=
    LockSystem.frame_of_update rfl rfl (fun _ hx => Function.update_of_ne hx _ _) rfl
  refine h.frame hf (fun p => (h.exclusive p).congr rfl rfl) (fun x _ => by rw [hcall])
    (by rw [hstore]) (fun _ _ _ h => h) ?_
  intro c _ _
  simp only [Function.update_self]
  exact ⟨nofun, nofun⟩

theorem LockedWrites.visit (h : s.LockedWrites) {pid : HeapPageId} {page : Page Tid} {c : Call}
    (hown : c.Writes → s.sys.lm.ownerTrans pid = some tid)
    (hkeep : ∀ tableId t ind fresh, c = .insertTuple tableId t ind fresh →
      (page.heap.addTuple t).isOk = false ∧ ∀ w ∈ s.store.pending, w.tid = tid → w.key ≠ pid)
    (hs : s.visit env tid pid page c = some s') : s'.LockedWrites := by
  cases c with
  | getPage =>
    cases hs
    exact h.endCall tid
  | deleteTuple t =>
    simp only [BufferPool.visit] at hs
    split at hs
    · cases hs
      refine LockedWrites.endCall ?_ tid
      refine ⟨h.exclusive, h.acquired, h.pending, fun w hw => ?_⟩
      rcases List.mem_append.mp hw with hw | hw
      · exact h.owner w hw
      · rw [List.mem_singleton.mp hw]
        exact hown trivial
    · cases hs
      exact h.endCall tid
  | insertTuple tableId t ind fresh =>
    obtain ⟨hfull, hpend⟩ := hkeep tableId t ind fresh rfl
    simp only [BufferPool.visit] at hs
    split at hs
    · split at hs
      · cases hs
        exact h.endCall tid
      · next heap hadd => simp [hadd, Except.isOk, Except.toBool] at hfull
    · obtain ⟨s₁, hrel, hs⟩ := Option.bind_eq_some_iff.mp hs
      have h₁ := h.releasePage hpend hrel
      split_ifs at hs
      · cases hs
        exact h₁.endCall tid
      · exact h₁.addTuple hs

theorem LockedWrites.transactionComplete (h : s.LockedWrites) {commit : Bool}
    (hs : s.transactionComplete env tid commit = some s') : s'.LockedWrites := by
  have hrel : ∀ {t : BufferPool Tid}, t.LockedWrites → (∀ w ∈ t.store.pending, w.tid ≠ tid) →
      t.releasePages env tid = some s' → s'.LockedWrites := by
    intro t ht hnone hs
    obtain ⟨sys, rfl, hf, hx, hidle, _⟩ := releasePages_frame ht.exclusive hs
    refine ht.frame hf hx (fun _ _ => rfl) rfl (fun w hw hwt => absurd hwt (hnone w hw)) ?_
    intro c _ _
    rw [hidle]
    exact ⟨nofun, nofun⟩
  have hdrop : ∀ w ∈ s.store.pending.filter (·.tid ≠ tid), w.tid ≠ tid := by
    intro w hw
    simpa using (List.mem_filter.mp hw).2
  unfold BufferPool.transactionComplete at hs
  split_ifs at hs
  · obtain ⟨hsys, hcall, hstore, _⟩ := s.flushPages_frame tid (s.pages.map Prod.fst)
    refine hrel ?_ ?_ hs
    · refine h.congr hsys hcall ?_
      rw [hstore]
      exact fun _ hw => List.mem_of_mem_filter hw
    · rw [hstore]
      exact hdrop
  · obtain ⟨hsys, hcall, hstore, _⟩ := s.rereadPages_frame tid (s.pages.map Prod.fst)
    split at hs
    · next t heq =>
      rw [heq] at hsys hcall hstore
      refine hrel ?_ ?_ hs
      · refine h.congr hsys hcall ?_
        rw [hstore]
        exact fun _ hw => List.mem_of_mem_filter hw
      · rw [hstore]
        exact hdrop
    · next t heq =>
      rw [heq] at hsys hcall hstore
      cases hs
      exact h.congr hsys hcall fun _ hw => hstore ▸ hw

theorem lockedWrites_step (h : s.LockedWrites) {e : PoolEvent Tid} (hok : s.KeepsLocks env e)
    (hs : s.step env e = some s') : s'.LockedWrites := by
  cases e with
  | getPage tid pid perm =>
    simp only [step] at hs
    split at hs
    · have hread : ¬ Call.getPage.Writes := id
      exact h.acquireLock (fun hw => absurd hw hread) hs
    · cases hs
  | insertTuple tid tableId t =>
    simp only [step] at hs
    split at hs
    · exact h.addTuple hs
    · cases hs
  | deleteTuple tid t =>
    simp only [step] at hs
    split at hs
    · split at hs
      · exact h.acquireLock (fun _ => rfl) hs
      · cases hs
    · cases hs
  | wake tid =>
    obtain ⟨sys, hrun, rfl⟩ := locks_eq hs
    have hstep := LockSystem.runWhile_singleton hrun
    have hf : LockSystem.Frame tid (fun _ => False) s.sys sys :=
      LockSystem.frame_step h.exclusive rfl (by rintro _ _ ⟨⟩) hstep
    refine h.frame hf (LockSystem.exclusive_step h.exclusive hstep) (fun _ _ => rfl) rfl
      (fun _ _ _ h => h) ?_
    intro c hc hw
    simp only [LockSystem.step] at hstep
    split at hstep
    · next pid perm deps hpc =>
      cases hstep
      simp only [Function.update_self]
      refine ⟨by rintro _ ⟨⟩, ?_⟩
      rintro _ _ ⟨⟩
      exact h.pending tid c pid perm hc hw (hpc ▸ .waiting _ _ _)
    · cases hstep
  | resume tid =>
    obtain ⟨t, ht, rfl⟩ := Option.map_eq_some_iff.mp hs
    obtain ⟨sys, hrun, rfl⟩ := locks_eq ht
    have hstep := LockSystem.runWhile_singleton hrun
    simp only [LockSystem.step] at hstep
    refine LockedWrites.settle ?_ tid
    split at hstep
    · next pid perm deps hpc =>
      cases hstep
      cases hc : s.call tid with
      | none =>
        have hf : LockSystem.Frame tid (fun _ => False) s.sys
            (s.sys.enter env.closesCycle tid pid perm deps) :=
          LockSystem.frame_enter h.exclusive pid perm deps
        refine h.frame hf ?_ (fun _ _ => rfl) rfl (fun _ _ _ h => h) ?_
        · intro p
          rw [LockSystem.enter_lm]
          exact LockManager.tryAquire_exclusive h.exclusive tid pid perm deps p
        · intro c hc'
          rw [hc] at hc'
          cases hc'
      | some c =>
        refine h.enter (c := c) (fun hw => ?_) rfl ?_ rfl
        · exact h.pending tid c pid perm hc hw (hpc ▸ .notified _ _ _)
        · rw [← hc, Function.update_eq_self]
    · cases hstep
  | proceed tid =>
    obtain ⟨pid, c, hpc, hcall, hcase⟩ := proceed_cases hs
    rcases hcase with ⟨_, rfl⟩ | ⟨page, hpage, hvisit⟩
    · exact h.load.endCall tid
    · refine h.load.visit (fun hw => h.acquired tid c pid hcall hw hpc) ?_ hvisit
      rintro tableId t ind fresh rfl
      simp only [KeepsLocks, hpc, hcall] at hok
      obtain ⟨_, _, hstore, _⟩ := loadPage_frame env s pid
      rw [hstore]
      exact ⟨hok.1 page hpage, hok.2⟩
  | transactionComplete tid commit =>
    simp only [step] at hs
    split at hs
    · exact h.transactionComplete hs
    · cases hs

instance (env : Env Tid) (s : BufferPool Tid) (e : PoolEvent Tid) :
    Decidable (s.KeepsLocks env e) := by
  unfold KeepsLocks
  split
  · split <;> infer_instance
  · infer_instance

/-- In a run without early releases every page with a pending write is locked
exclusively by the transaction that wrote it, and no request of another
transaction for the page is granted. -/
theorem strict_two_phase_locking {tables : ℤ → List HeapPage}
    (h : Reaches (step env) (KeepsLocks env) (init tables) s) (tid : Tid) (pid : HeapPageId)
    (hw : ∃ w ∈ s.store.pending, w.tid = tid ∧ w.key = pid) :
    s.sys.lm.ownerTrans pid = some tid ∧ s.sys.lm.sharedTrans pid = [] ∧
      ∀ other, other ≠ tid → ∀ perm deps,
        (s.sys.lm.tryAquire env.closesCycle other pid perm deps).1 ≠ .granted := by
  have hi : s.LockedWrites := by
    refine h.invariant ?_ fun _ _ _ hi hok hs => lockedWrites_step hi hok hs
    exact ⟨fun _ => .inr ⟨rfl, List.nodup_nil⟩, by rintro _ _ _ ⟨⟩, by rintro _ _ _ _ ⟨⟩,
      fun _ hw => (List.not_mem_nil hw).elim⟩
  obtain ⟨w, hw, rfl, rfl⟩ := hw
  have ho := hi.owner w hw
  refine ⟨ho, (hi.exclusive w.key).not_shared ho, ?_⟩
  intro other hne perm deps
  have hc : s.sys.lm.Conflicts perm w.key other w.tid := by
    refine ⟨hne.symm, ?_⟩
    cases perm with
    | readOnly => exact ho
    | readWrite => exact .inl ho
  exact LockManager.tryAquire_not_granted hi.exclusive deps hc

/-- A table of rows of 31 strings, in a pool of fifty pages. -/
def wideEnv : Env ℕ where
  closesCycle := LockManager.searchCycle
  decode := HeapPage.decodeLatin1
  catalog tableId := if tableId = 0 then some HeapPage.wideDesc else none
  maxPages := 50

/-- The page of the table, with a row or without. -/
def widePage (row : Option Tuple) : HeapPage :=
  have hslots : getNumTuples HeapPage.wideDesc = 1 := by decide +kernel
  have hheader : getHeaderSize HeapPage.wideDesc = 1 := by decide +kernel
  ⟨⟨0, 0⟩, HeapPage.wideDesc, [if row.isSome then 1 else 0], [row], by rw [hslots]; decide,
    by rw [hheader]; rfl, by rw [hslots]; rfl⟩

def wideTables (row : Option Tuple) (tableId : ℤ) : List HeapPage :=
  if tableId = 0 then [widePage row] else []

def wideTuple : Tuple := (Tuple.new HeapPage.wideDesc).setRecordId ⟨⟨0, 0⟩, 0⟩

/-- Transaction 1 deletes the row of the page and keeps the page locked. -/
theorem strict_two_phase_locking_delete :
    ∃ s, Reaches (step wideEnv) (KeepsLocks wideEnv) (init (wideTables (some wideTuple))) s ∧
      s.sys.lm.ownerTrans ⟨0, 0⟩ = some 1 ∧
      (s.sys.lm.tryAquire LockManager.searchCycle 2 ⟨0, 0⟩ .readOnly []).1 ≠ .granted := by
  have hrun : (runWhile (step wideEnv) (fun s e => decide (KeepsLocks wideEnv s e))
      (init (wideTables (some wideTuple))) [.deleteTuple 1 wideTuple, .proceed 1]).any
      (fun s => decide (∃ w ∈ s.store.pending, w.tid = 1 ∧ w.key = ⟨0, 0⟩)) = true := by
    decide +kernel
  obtain ⟨s, hs, hw⟩ := Option.any_eq_true _ _ |>.mp hrun
  have hr := (reaches_runWhile _ .refl hs).mono fun _ _ h => of_decide_eq_true h
  obtain ⟨ho, _, hno⟩ := strict_two_phase_locking hr 1 ⟨0, 0⟩ (of_decide_eq_true hw)
  exact ⟨s, hr, ho, hno 2 (by decide) .readOnly []⟩

/-- Transaction 1 inserts a row. It is in the pool, but nobody holds the page, and
another transaction gets it. -/
theorem two_phase_locking_insert :
    ∃ s, Reachable (step wideEnv) (init (wideTables none)) s ∧
      (∃ w ∈ s.store.pending, w.tid = 1 ∧ w.key = ⟨0, 0⟩) ∧
      (s.inPool ⟨0, 0⟩).map (fun rows => rows 0) = some (some wideTuple.fields) ∧
      s.sys.lm.ownerTrans ⟨0, 0⟩ ≠ some 1 ∧
      (s.sys.lm.tryAquire LockManager.searchCycle 2 ⟨0, 0⟩ .readWrite []).1 = .granted := by
  have hrun : (runWhile (step wideEnv) (fun _ _ => true) (init (wideTables none))
      [.insertTuple 1 0 wideTuple, .proceed 1]).any (fun s => decide (
        (∃ w ∈ s.store.pending, w.tid = 1 ∧ w.key = ⟨0, 0⟩) ∧
        (s.inPool ⟨0, 0⟩).map (fun rows => rows 0) = some (some wideTuple.fields) ∧
        s.sys.lm.ownerTrans ⟨0, 0⟩ ≠ some 1 ∧
        (s.sys.lm.tryAquire LockManager.searchCycle 2 ⟨0, 0⟩ .readWrite []).1 = .granted)) =
      true := by
    decide +kernel
  obtain ⟨s, hs, hw⟩ := Option.any_eq_true _ _ |>.mp hrun
  exact ⟨s, reachable_runWhile _ hs, of_decide_eq_true hw⟩

end BufferPool

end Courses.SimpleDb
