import Courses.SimpleDb.PoolContents

/-!
# Atomicity and durability of transactions

`transactionComplete` flushes or rereads the pages the lock manager has on record
for the transaction. That is right as long as the record names exactly the pages
the transaction has changed or may have read. An insertion takes its page off the
record before it returns: its row is not on disk after a commit and still in the
pool after an abort. In runs without such insertions, and in which an insertion
that finds a page full does not give up a page its transaction held before, the
pool refines the transactional store.
-/
set_option linter.unusedSectionVars false

namespace Courses.SimpleDb

open Courses.Lib

namespace BufferPool

variable {Tid : Type} [DecidableEq Tid] {env : Env Tid} {s s' : BufferPool Tid} {tid : Tid}

/-! ## Pages and the store -/

/-- The refinement: the store is what the disk and the pool show. -/
structure Refines (s : BufferPool Tid) : Prop where
  disk : ∀ p, s.onDisk p = s.store.committed p
  pool : ∀ p page, s.pages.lookup p = some page →
    page.heap.pid = p ∧ some page.heap.contents = s.store.visible p
  dirty : ∀ w ∈ s.store.pending, ∃ page, s.pages.lookup w.key = some page ∧ page.dirty.isSome
  fresh : ∀ tableId n, s.numPages tableId ≤ n → s.store.committed ⟨tableId, (n : ℕ)⟩ = none

/-- The locks and the calls play no part in the refinement. -/
theorem Refines.congr (h : s.Refines) (hpages : s'.pages = s.pages) (hdisk : s'.disk = s.disk)
    (hnum : s'.numPages = s.numPages) (hstore : s'.store = s.store) : s'.Refines where
  disk p := by simpa only [onDisk, hdisk, hstore] using h.disk p
  pool p page hp := by
    rw [hstore]
    exact h.pool p page (hpages ▸ hp)
  dirty w hw := by
    rw [hpages]
    exact h.dirty w (hstore ▸ hw)
  fresh tableId n hn := by
    rw [hstore]
    exact h.fresh tableId n (hnum ▸ hn)

/-- A page without a dirty copy in the pool has no pending writes. -/
theorem Refines.visible_clean (h : s.Refines) {p : HeapPageId}
    (hclean : ∀ page, s.pages.lookup p = some page → page.dirty = none) :
    s.store.visible p = s.onDisk p := by
  rw [h.disk]
  refine TxStore.visible_of_pendingAt_nil (TxStore.pendingAt_eq_nil fun w hw hk => ?_)
  obtain ⟨page, hp, hd⟩ := h.dirty w hw
  rw [hk] at hp
  simp [hclean page hp] at hd

theorem Refines.filed (h : s.Refines) : s.Filed := by
  intro p page hp
  refine ⟨(h.pool p page hp).1, fun hd => ?_⟩
  rw [(h.pool p page hp).2, h.visible_clean]
  intro page' hp'
  rw [hp, Option.some.injEq] at hp'
  exact hp' ▸ hd

theorem Refines.load (h : s.Refines) (env : Env Tid) (pid : HeapPageId) :
    (s.loadPage env pid).1.Refines := by
  obtain ⟨hdisk, hnew, hdirty, _⟩ := loadPage_pages env s pid
  obtain ⟨_, _, hstore, hnum⟩ := loadPage_frame env s pid
  have hon : ∀ p, (s.loadPage env pid).1.onDisk p = s.onDisk p := by
    intro p
    rw [onDisk, hdisk, onDisk]
  refine ⟨fun p => by rw [hon, hstore, h.disk], fun p page hp => ?_, fun w hw => ?_, ?_⟩
  · rw [hstore]
    rcases hnew p page hp with hp | ⟨rfl, hnone, hread⟩
    · exact h.pool p page hp
    · obtain ⟨raw, hraw, hheap⟩ := Option.map_eq_some_iff.mp hread
      rw [← hheap, h.visible_clean fun page' hp' => by simp [hnone] at hp', onDisk, hraw]
      exact ⟨rfl, rfl⟩
  · rw [hstore] at hw
    obtain ⟨page, hp, hd⟩ := h.dirty w hw
    exact ⟨page, hdirty w.key page hp hd, hd⟩
  · rw [hnum, hstore]
    exact h.fresh

/-- A deletion is a write of the store. -/
theorem Refines.delete (h : s.Refines) {pid : HeapPageId} {page : Page Tid} {t : Tuple}
    {rid : RecordId} {heap : HeapPage} (hp : s.pages.lookup pid = some page)
    (hdel : page.heap.deleteTuple t = .ok heap) (hrid : t.rid = some rid) (tid : Tid) :
    ({ s with
      pages := put s.pages pid ⟨heap, some tid⟩
      store := s.store.write ⟨tid, pid, rid.tupleno, none⟩ } : BufferPool Tid).Refines := by
  obtain ⟨hpid, hcontents⟩ := HeapPage.contents_deleteTuple hdel hrid
  obtain ⟨hfiled, hvis⟩ := h.pool pid page hp
  refine ⟨h.disk, fun p page' hp' => ?_, fun w hw => ?_, h.fresh⟩
  · simp only [lookup_put] at hp'
    rw [TxStore.visible_write]
    split_ifs at hp' with hpp
    · cases hp'
      subst hpp
      rw [if_pos rfl, ← hvis]
      exact ⟨hpid.trans hfiled, congrArg some hcontents⟩
    · rw [if_neg (fun hk => hpp hk.symm)]
      exact h.pool p page' hp'
  · simp only [lookup_put]
    by_cases hk : w.key = pid
    · exact ⟨⟨heap, some tid⟩, if_pos hk, rfl⟩
    · rw [if_neg hk]
      rcases List.mem_append.mp hw with hw | hw
      · exact h.dirty w hw
      · rw [List.mem_singleton.mp hw] at hk
        exact absurd rfl hk

/-- A new page of a table. -/
theorem Refines.create (h : s.Refines) {tableId : ℤ} {page : HeapPage}
    (hpid : page.pid = ⟨tableId, s.numPages tableId⟩) :
    ({ s with
      numPages := Function.update s.numPages tableId (s.numPages tableId + 1)
      disk := Function.update s.disk ⟨tableId, page.pid.pgNo⟩ (some page.image)
      store := s.store.create ⟨tableId, s.numPages tableId⟩ page.contents } :
        BufferPool Tid).Refines := by
  have hnone := h.fresh tableId (s.numPages tableId) le_rfl
  have hcommitted : ∀ p, p ≠ (⟨tableId, s.numPages tableId⟩ : HeapPageId) →
      (s.store.create ⟨tableId, s.numPages tableId⟩ page.contents).committed p =
        s.store.committed p := fun p hp => by rw [TxStore.committed_create, if_neg hp]
  refine ⟨fun p => ?_, fun p page' hp => ?_, h.dirty, fun tableId' n hn => ?_⟩
  · simp only [onDisk, hpid]
    by_cases hp : p = ⟨tableId, s.numPages tableId⟩
    · rw [hp, Function.update_self, TxStore.committed_create, if_pos rfl, Option.map_some,
        HeapPage.contents_image]
    · rw [Function.update_of_ne hp, hcommitted p hp]
      exact h.disk p
  · have hne : p ≠ ⟨tableId, s.numPages tableId⟩ := by
      rintro rfl
      have hvis := (h.pool _ page' hp).2
      rw [TxStore.visible, hnone] at hvis
      cases hvis
    obtain ⟨h1, h2⟩ := h.pool p page' hp
    refine ⟨h1, ?_⟩
    rw [h2, TxStore.visible, TxStore.visible, hcommitted p hne]
    rfl
  · by_cases ht : tableId' = tableId
    · subst ht
      simp only [Function.update_self] at hn
      rw [hcommitted _ fun heq => ?_]
      · exact h.fresh tableId' n (by omega)
      · have hcast : (n : ℤ) = (s.numPages tableId' : ℤ) := congrArg HeapPageId.pgNo heq
        omega
    · simp only [Function.update_of_ne ht] at hn
      rw [hcommitted _ fun heq => ht (congrArg HeapPageId.tableId heq)]
      exact h.fresh tableId' n hn

/-- The pages on record are those on which nobody else has pending writes, and the
only ones on which the transaction itself has. -/
def Separate (s : BufferPool Tid) (tid : Tid) : Prop :=
  ∀ p, (s.sys.lm.holdsLock tid p = true → s.store.OnlyBy tid p) ∧
    (s.sys.lm.holdsLock tid p = false → s.store.NotBy tid p)

/-- The writes that outlive the end of a transaction are on pages it has no lock on. -/
theorem Separate.holdsLock_eq_false (hsep : s.Separate tid)
    {w : Write Tid HeapPageId ℤ (Option Row)} (hw : w ∈ s.store.pending) (hne : w.tid ≠ tid) :
    s.sys.lm.holdsLock tid w.key = false := by
  cases hl : s.sys.lm.holdsLock tid w.key with
  | false => rfl
  | true => exact absurd ((hsep w.key).1 hl w hw rfl) hne

theorem Refines.commit (h : s.Refines) (hsep : s.Separate tid) :
    ({ s.flushPages tid (s.pages.map Prod.fst) with store := s.store.commit tid } :
      BufferPool Tid).Refines := by
  obtain ⟨hheap, hother, hself⟩ := flushPages_filed tid (s.pages.map Prod.fst) h.filed
  obtain ⟨_, _, _, hnum⟩ := s.flushPages_frame tid (s.pages.map Prod.fst)
  have hvisible : ∀ p, (s.store.commit tid).visible p = s.store.visible p := by
    intro p
    cases hl : s.sys.lm.holdsLock tid p with
    | true => exact TxStore.visible_commit_onlyBy ((hsep p).1 hl)
    | false => exact TxStore.visible_commit_notBy ((hsep p).2 hl)
  refine ⟨fun p => ?_, fun p page hp => ?_, fun w hw => ?_, fun tableId n hn => ?_⟩
  · cases hl : s.sys.lm.holdsLock tid p with
    | true =>
      rw [TxStore.committed_commit_onlyBy ((hsep p).1 hl)]
      cases hp : s.pages.lookup p with
      | some page => exact (hself p page (mem_keys hp) hl hp).trans (h.pool p page hp).2
      | none =>
        rw [h.visible_clean fun page hp' => by simp [hp] at hp']
        refine (hother p fun hc => ?_).2
        have hin := mem_keys_iff.mp hc.1
        simp [hp] at hin
    | false =>
      rw [TxStore.committed_commit_notBy ((hsep p).2 hl)]
      exact (hother p fun hc => by simp [hl] at hc).2.trans (h.disk p)
  · have hmap := hheap p
    rw [hp, Option.map_some] at hmap
    obtain ⟨page₀, hp₀, hsame⟩ := Option.map_eq_some_iff.mp hmap.symm
    obtain ⟨h1, h2⟩ := h.pool p page₀ hp₀
    rw [hvisible, ← hsame]
    exact ⟨h1, h2⟩
  · obtain ⟨hw, hne⟩ := List.mem_filter.mp hw
    have hl := hsep.holdsLock_eq_false hw (of_decide_eq_true hne)
    rw [(hother w.key fun hc => by simp [hl] at hc).1]
    exact h.dirty w hw
  · exact TxStore.committed_commit_none (h.fresh tableId n (hnum ▸ hn))

theorem Refines.abort (h : s.Refines) (hsep : s.Separate tid) :
    (s.rereadPages tid (s.pages.map Prod.fst)).2 = true ∧
      ({ (s.rereadPages tid (s.pages.map Prod.fst)).1 with store := s.store.abort tid } :
        BufferPool Tid).Refines := by
  have hread : ∀ p ∈ s.pages.map Prod.fst, (s.onDisk p).isSome := by
    intro p hp
    obtain ⟨page, hpage⟩ := Option.isSome_iff_exists.mp (mem_keys_iff.mp hp)
    have hvis := (h.pool p page hpage).2
    rw [TxStore.visible, ← h.disk] at hvis
    obtain ⟨c, hc, _⟩ := Option.map_eq_some_iff.mp hvis.symm
    rw [hc]
    rfl
  obtain ⟨hok, hdisk, hother, hself⟩ := rereadPages_filed tid (s.pages.map Prod.fst) hread
  obtain ⟨_, _, _, hnum⟩ := s.rereadPages_frame tid (s.pages.map Prod.fst)
  refine ⟨hok, fun p => ?_, fun p page hp => ?_, fun w hw => ?_, fun tableId n hn => ?_⟩
  · have hon : (s.rereadPages tid (s.pages.map Prod.fst)).1.onDisk p = s.onDisk p := by
      rw [onDisk, hdisk, onDisk]
    exact hon.trans (h.disk p)
  · by_cases hin : p ∈ s.pages.map Prod.fst ∧ s.sys.lm.holdsLock tid p = true
    · obtain ⟨page', hp', hpid, hc⟩ := hself p hin.1 hin.2
      have hsame : page' = page := Option.some.inj (hp'.symm.trans hp)
      subst hsame
      refine ⟨hpid, ?_⟩
      rw [hc, h.disk]
      exact (TxStore.visible_abort_onlyBy ((hsep p).1 hin.2)).symm
    · have hold : s.pages.lookup p = some page := (hother p hin).symm.trans hp
      have hl : s.sys.lm.holdsLock tid p = false := by
        simpa using fun hl => hin ⟨mem_keys hold, hl⟩
      obtain ⟨h1, h2⟩ := h.pool p page hold
      exact ⟨h1, h2.trans (TxStore.visible_abort_notBy ((hsep p).2 hl)).symm⟩
  · obtain ⟨hw, hne⟩ := List.mem_filter.mp hw
    have hl := hsep.holdsLock_eq_false hw (of_decide_eq_true hne)
    obtain ⟨page, hp, hd⟩ := h.dirty w hw
    exact ⟨page, (hother w.key fun hc => by simp [hl] at hc).trans hp, hd⟩
  · exact h.fresh tableId n (hnum ▸ hn)

/-! ## The record -/

/-- The pages on record are locked, and every page with a pending write is on the
record of its writer. -/
structure Recorded (s : BufferPool Tid) : Prop where
  recorded : ∀ x p, p ∈ s.sys.lm.pagesHoldsByTrans x → s.sys.lm.Holds x p
  held : ∀ x p, s.sys.pc x = .acquired p → s.sys.lm.Holds x p
  written : ∀ w ∈ s.store.pending, w.key ∈ s.sys.lm.pagesHoldsByTrans w.tid

theorem Recorded.congr (h : s.Recorded) (hsys : s'.sys = s.sys)
    (hstore : s'.store.pending ⊆ s.store.pending) : s'.Recorded where
  recorded := by rw [hsys]; exact h.recorded
  held := by rw [hsys]; exact h.held
  written w hw := by
    rw [hsys]
    exact h.written w (hstore hw)

theorem Recorded.frame (h : s.Recorded) {gone : HeapPageId → Prop}
    (hf : LockSystem.Frame tid gone s.sys s'.sys) (hstore : s'.store.pending = s.store.pending)
    (hrec : ∀ p ∈ s'.sys.lm.pagesHoldsByTrans tid, s'.sys.lm.Holds tid p)
    (hheld : ∀ p, s'.sys.pc tid = .acquired p → s'.sys.lm.Holds tid p)
    (hwritten : ∀ w ∈ s.store.pending, w.tid = tid →
      w.key ∈ s'.sys.lm.pagesHoldsByTrans tid) : s'.Recorded where
  recorded x p hp := by
    by_cases hx : x = tid
    · subst hx
      exact hrec p hp
    · rw [hf.recorded x hx] at hp
      exact hf.holds x p (fun h => absurd h hx) (h.recorded x p hp)
  held x p hp := by
    by_cases hx : x = tid
    · subst hx
      exact hheld p hp
    · exact hf.holds x p (fun h => absurd h hx) (h.held x p (hf.acquired x p hx hp))
  written w hw := by
    rw [hstore] at hw
    by_cases hx : w.tid = tid
    · rw [hx]
      exact hwritten w hw hx
    · rw [hf.recorded w.tid hx]
      exact h.written w hw

theorem Recorded.settle (h : s.Recorded) (tid : Tid) : (s.settle tid).Recorded := by
  unfold BufferPool.settle
  split_ifs
  · exact h.congr rfl fun _ hw => hw
  · exact h

theorem Recorded.enter (h : s.Recorded) (hx : ∀ p, s.sys.lm.Exclusive p) {pid : HeapPageId}
    {perm : Permissions} {deps : List Tid}
    (hsys : s'.sys = s.sys.enter env.closesCycle tid pid perm deps) (hstore : s'.store = s.store) :
    s'.Recorded := by
  have hf : LockSystem.Frame tid (fun _ => False) s.sys s'.sys := by
    rw [hsys]
    exact LockSystem.frame_enter hx pid perm deps
  have hrec : s'.sys.lm.pagesHoldsByTrans = s.sys.lm.pagesHoldsByTrans := by
    rw [hsys, LockSystem.enter_pagesHoldsByTrans]
  refine h.frame hf (by rw [hstore]) ?_ ?_ ?_
  · intro p hp
    rw [hrec] at hp
    exact hf.holds tid p (fun _ h => h) (h.recorded tid p hp)
  · intro p hp
    rw [hsys] at hp ⊢
    exact (LockSystem.enter_acquired hp).2.1
  · intro w hw hwt
    rw [hrec, ← hwt]
    exact h.written w hw

theorem Recorded.acquireLock (h : s.Recorded) (hx : ∀ p, s.sys.lm.Exclusive p) {pid : HeapPageId}
    {perm : Permissions} {c : Call} (hs : s.acquireLock env tid pid perm c = some s') :
    s'.Recorded := by
  obtain ⟨t, ht, rfl⟩ := Option.map_eq_some_iff.mp hs
  obtain ⟨sys, hrun, rfl⟩ := locks_eq ht
  have hstep := LockSystem.runWhile_singleton hrun
  simp only [LockSystem.step] at hstep
  split at hstep
  · cases hstep
    refine Recorded.settle ?_ tid
    exact h.enter hx rfl rfl
  · cases hstep

theorem Recorded.addTuple (h : s.Recorded) (hx : ∀ p, s.sys.lm.Exclusive p) {tableId : ℤ}
    {t : Tuple} {ind : ℕ} (hs : s.addTuple env tid tableId t ind = some s') : s'.Recorded := by
  unfold BufferPool.addTuple at hs
  split_ifs at hs
  · exact h.acquireLock hx hs
  · dsimp only at hs
    split at hs
    · refine Recorded.acquireLock ?_ ?_ hs
      · exact h.congr rfl fun _ hw => hw
      · exact hx
    · cases hs
      exact h.congr rfl fun _ hw => hw

/-- Giving up a page that was on record only once, and with no write pending. -/
theorem Recorded.releasePage (h : s.Recorded) (hx : ∀ p, s.sys.lm.Exclusive p) {pid : HeapPageId}
    (honce : pid ∉ (s.sys.lm.pagesHoldsByTrans tid).erase pid)
    (hown : ∀ w ∈ s.store.pending, w.tid = tid → w.key ≠ pid)
    (hs : s.releasePage env tid pid = some s') : s'.Recorded := by
  obtain ⟨sys, rfl, hf, _, hidle, hrec⟩ := releasePage_frame hx hs
  refine h.frame hf rfl ?_ ?_ ?_
  · intro p hp
    simp only [hrec] at hp
    have hne : p ≠ pid := fun heq => honce (heq ▸ hp)
    exact hf.holds tid p (fun _ => hne) (h.recorded tid p (List.mem_of_mem_erase hp))
  · intro p hp
    simp [hidle] at hp
  · intro w hw hwt
    simp only [hrec]
    exact (List.mem_erase_of_ne (hown w hw hwt)).mpr (hwt ▸ h.written w hw)

/-- Recording a page that has just been acquired, and loading it. -/
theorem Recorded.load (h : s.Recorded) {pid : HeapPageId} (hpc : s.sys.pc tid = .acquired pid) :
    ({ (s.loadPage env pid).1 with sys := { s.sys with
        lm := s.sys.lm.record tid pid, pc := Function.update s.sys.pc tid .idle } } :
      BufferPool Tid).Recorded := by
  obtain ⟨_, _, hstore, _⟩ := loadPage_frame env s pid
  have hf : LockSystem.Frame tid (fun _ => False) s.sys { s.sys with
      lm := s.sys.lm.record tid pid, pc := Function.update s.sys.pc tid .idle } :=
    LockSystem.frame_of_update rfl rfl (fun _ hx => Function.update_of_ne hx _ _) rfl
  refine h.frame hf (by rw [hstore]) ?_ ?_ ?_
  · intro p hp
    simp only [LockManager.record, Function.update_self] at hp
    refine hf.holds tid p (fun _ h => h) ?_
    rcases List.mem_append.mp hp with hp | hp
    · exact h.recorded tid p hp
    · rw [List.mem_singleton.mp hp]
      exact h.held tid pid hpc
  · intro p hp
    simp at hp
  · intro w hw hwt
    simp only [LockManager.record, Function.update_self]
    exact List.mem_append_left _ (hwt ▸ h.written w hw)

/-! ## Runs -/

/-- An insertion that is about to visit its page will not place its tuple there,
and its transaction had not locked the page before. -/
def KeepsRecord (env : Env Tid) (s : BufferPool Tid) : PoolEvent Tid → Prop
  | .proceed tid =>
    match s.sys.pc tid, s.call tid with
    | .acquired pid, some (.insertTuple _ t _ _) =>
      (∀ page ∈ (s.loadPage env pid).2, (page.heap.addTuple t).isOk = false) ∧
        s.sys.lm.holdsLock tid pid = false
    | _, _ => True
  | _ => True

instance (env : Env Tid) (s : BufferPool Tid) (e : PoolEvent Tid) :
    Decidable (s.KeepsRecord env e) :=
  match e with
  | .proceed tid =>
    match hpc : s.sys.pc tid with
    | .acquired pid =>
      match hcall : s.call tid with
      | some (.insertTuple _ t _ _) =>
        decidable_of_iff
          ((∀ page ∈ (s.loadPage env pid).2, (page.heap.addTuple t).isOk = false) ∧
            s.sys.lm.holdsLock tid pid = false)
          (by simp [KeepsRecord, hpc, hcall])
      | none | some .getPage | some (.deleteTuple _) => .isTrue (by simp [KeepsRecord, hpc, hcall])
    | .idle | .waiting .. | .notified .. | .released _ | .releasing _ =>
      .isTrue (by simp [KeepsRecord, hpc])
  | .getPage .. | .insertTuple .. | .deleteTuple .. | .wake _ | .resume _
  | .transactionComplete .. => .isTrue trivial

structure PoolInv (s : BufferPool Tid) : Prop where
  locked : s.LockedWrites
  recorded : s.Recorded
  refines : s.Refines

theorem holdsLock_iff {lm : LockManager Tid HeapPageId} {p : HeapPageId} :
    lm.holdsLock tid p = true ↔ p ∈ lm.pagesHoldsByTrans tid := by
  simp [LockManager.holdsLock]

theorem PoolInv.separate (h : s.PoolInv) (tid : Tid) : s.Separate tid := by
  intro p
  constructor
  · intro hl w hw hk
    have hheld := h.recorded.recorded tid p (holdsLock_iff.mp hl)
    have ho := h.locked.owner w hw
    rw [hk] at ho
    by_contra hne
    exact (h.locked.exclusive p).not_holds ho hne hheld
  · intro hl w hw hk hwt
    have hmem := h.recorded.written w hw
    rw [hk, hwt] at hmem
    rw [holdsLock_iff.mpr hmem] at hl
    cases hl

theorem PoolInv.keepsLocks (h : s.PoolInv) {e : PoolEvent Tid} (hok : s.KeepsRecord env e) :
    s.KeepsLocks env e := by
  unfold KeepsRecord at hok
  unfold KeepsLocks
  split
  · next tid =>
    split
    · next pid tableId t ind fresh hpc hcall =>
      simp only [hpc, hcall] at hok
      refine ⟨hok.1, fun w hw hwt hk => ?_⟩
      exact (h.separate tid pid).2 hok.2 w hw hk hwt
    · trivial
  · trivial

theorem Refines.acquireLock (h : s.Refines) {pid : HeapPageId} {perm : Permissions} {c : Call}
    (hs : s.acquireLock env tid pid perm c = some s') : s'.Refines := by
  obtain ⟨t, ht, rfl⟩ := Option.map_eq_some_iff.mp hs
  obtain ⟨sys, _, rfl⟩ := locks_eq ht
  unfold settle
  split_ifs <;> exact h.congr rfl rfl rfl rfl

theorem Refines.addTuple (h : s.Refines) {tableId : ℤ} {t : Tuple} {ind : ℕ}
    (hs : s.addTuple env tid tableId t ind = some s') : s'.Refines := by
  unfold BufferPool.addTuple at hs
  split_ifs at hs
  · exact h.acquireLock hs
  · dsimp only at hs
    split at hs
    · next page hnew =>
      obtain ⟨td, _, htd⟩ := Option.map_eq_some_iff.mp hnew
      refine Refines.acquireLock ?_ hs
      exact h.create (HeapPage.new_ok htd).1
    · cases hs
      refine ⟨h.disk, h.pool, h.dirty, fun tableId' n hn => h.fresh tableId' n ?_⟩
      simp only [endCall] at hn
      by_cases ht : tableId' = tableId
      · subst ht
        rw [Function.update_self] at hn
        omega
      · rwa [Function.update_of_ne ht] at hn

theorem PoolInv.visit (h : s.PoolInv) {pid : HeapPageId} {page : Page Tid} {c : Call}
    (hpage : s.pages.lookup pid = some page) (hmem : pid ∈ s.sys.lm.pagesHoldsByTrans tid)
    (hkeep : ∀ tableId t ind fresh, c = .insertTuple tableId t ind fresh →
      (page.heap.addTuple t).isOk = false ∧
        pid ∉ (s.sys.lm.pagesHoldsByTrans tid).erase pid ∧
        ∀ w ∈ s.store.pending, w.tid = tid → w.key ≠ pid)
    (hs : s.visit env tid pid page c = some s') : s'.Recorded ∧ s'.Refines := by
  have hend : ∀ {t : BufferPool Tid}, t.Recorded → t.Refines →
      (t.endCall tid).Recorded ∧ (t.endCall tid).Refines := fun h1 h2 =>
    ⟨h1.congr rfl fun _ hw => hw, h2.congr rfl rfl rfl rfl⟩
  cases c with
  | getPage =>
    cases hs
    exact hend h.recorded h.refines
  | deleteTuple t =>
    simp only [BufferPool.visit] at hs
    split at hs
    · next heap rid hdel hrid =>
      cases hs
      refine hend ⟨h.recorded.recorded, h.recorded.held, fun w hw => ?_⟩
        (h.refines.delete hpage hdel hrid tid)
      rcases List.mem_append.mp hw with hw | hw
      · exact h.recorded.written w hw
      · rw [List.mem_singleton.mp hw]
        exact hmem
    · cases hs
      exact hend h.recorded h.refines
  | insertTuple tableId t ind fresh =>
    obtain ⟨hfull, honce, hown⟩ := hkeep tableId t ind fresh rfl
    simp only [BufferPool.visit] at hs
    split at hs
    · split at hs
      · cases hs
        exact hend h.recorded h.refines
      · next heap hadd => simp [hadd, Except.isOk, Except.toBool] at hfull
    · obtain ⟨s₁, hrel, hs⟩ := Option.bind_eq_some_iff.mp hs
      have hrec := h.recorded.releasePage h.locked.exclusive honce hown hrel
      have hlock := h.locked.releasePage hown hrel
      have href : s₁.Refines := by
        obtain ⟨sys, _, rfl⟩ := locks_eq hrel
        exact h.refines.congr rfl rfl rfl rfl
      split_ifs at hs
      · cases hs
        exact hend hrec href
      · exact ⟨hrec.addTuple hlock.exclusive hs, href.addTuple hs⟩

/-- The part of `transactionComplete` before the locks are given up. -/
theorem transactionComplete_cases (h : s.PoolInv) {commit : Bool}
    (hs : s.transactionComplete env tid commit = some s') :
    ∃ t : BufferPool Tid, t.Refines ∧ t.sys = s.sys ∧ t.call = s.call ∧
      t.store = (if commit then s.store.commit tid else s.store.abort tid) ∧
      t.releasePages env tid = some s' := by
  unfold BufferPool.transactionComplete at hs
  cases commit with
  | true =>
    obtain ⟨hsys, hcall, hstore, _⟩ := s.flushPages_frame tid (s.pages.map Prod.fst)
    have href := h.refines.commit (h.separate tid)
    rw [if_pos rfl] at hs
    dsimp only at hs
    rw [hstore] at hs
    exact ⟨_, href, hsys, hcall, rfl, hs⟩
  | false =>
    obtain ⟨hsys, hcall, hstore, _⟩ := s.rereadPages_frame tid (s.pages.map Prod.fst)
    obtain ⟨hok, href⟩ := h.refines.abort (h.separate tid)
    rw [if_neg Bool.false_ne_true] at hs
    split at hs
    · next t heq =>
      rw [heq] at hsys hcall hstore href
      rw [hstore] at hs
      exact ⟨_, href, hsys, hcall, rfl, hs⟩
    · next t heq =>
      rw [heq] at hok
      cases hok

theorem PoolInv.transactionComplete (h : s.PoolInv) {commit : Bool}
    (hs : s.transactionComplete env tid commit = some s') : s'.Recorded ∧ s'.Refines := by
  obtain ⟨t, href, hsys, _, hstore, hrel⟩ := transactionComplete_cases h hs
  have hx : ∀ p, t.sys.lm.Exclusive p := hsys ▸ h.locked.exclusive
  obtain ⟨sys, rfl, hf, _, hidle, hnil⟩ := releasePages_frame hx hrel
  have hpending : t.store.pending = s.store.pending.filter (·.tid ≠ tid) := by
    rw [hstore]
    cases commit <;> rfl
  have hrec : t.Recorded := h.recorded.congr hsys fun w hw =>
    List.mem_of_mem_filter (hpending ▸ hw)
  refine ⟨hrec.frame hf rfl ?_ ?_ ?_, href.congr rfl rfl rfl rfl⟩
  · intro p hp
    simp [hnil] at hp
  · intro p hp
    simp [hidle] at hp
  · intro w hw hwt
    rw [hpending] at hw
    simp [hwt] at hw

theorem poolInv_step (h : s.PoolInv) {e : PoolEvent Tid} (hok : s.KeepsRecord env e)
    (hs : s.step env e = some s') : s'.PoolInv := by
  have hlocked := lockedWrites_step h.locked (h.keepsLocks hok) hs
  suffices hrest : s'.Recorded ∧ s'.Refines from ⟨hlocked, hrest.1, hrest.2⟩
  have hx := h.locked.exclusive
  cases e with
  | getPage tid pid perm =>
    simp only [step] at hs
    split at hs
    · exact ⟨h.recorded.acquireLock hx hs, h.refines.acquireLock hs⟩
    · cases hs
  | insertTuple tid tableId t =>
    simp only [step] at hs
    split at hs
    · exact ⟨h.recorded.addTuple hx hs, h.refines.addTuple hs⟩
    · cases hs
  | deleteTuple tid t =>
    simp only [step] at hs
    split at hs
    · split at hs
      · exact ⟨h.recorded.acquireLock hx hs, h.refines.acquireLock hs⟩
      · cases hs
    · cases hs
  | wake tid =>
    obtain ⟨sys, hrun, rfl⟩ := locks_eq hs
    have hstep := LockSystem.runWhile_singleton hrun
    have hf : LockSystem.Frame tid (fun _ => False) s.sys sys :=
      LockSystem.frame_step hx rfl (by rintro _ _ ⟨⟩) hstep
    simp only [LockSystem.step] at hstep
    split at hstep
    · cases hstep
      refine ⟨h.recorded.frame hf rfl (h.recorded.recorded tid) ?_ ?_,
        h.refines.congr rfl rfl rfl rfl⟩
      · intro p hp
        simp at hp
      · intro w hw hwt
        exact hwt ▸ h.recorded.written w hw
    · cases hstep
  | resume tid =>
    obtain ⟨t, ht, rfl⟩ := Option.map_eq_some_iff.mp hs
    obtain ⟨sys, hrun, rfl⟩ := locks_eq ht
    have hstep := LockSystem.runWhile_singleton hrun
    simp only [LockSystem.step] at hstep
    split at hstep
    · cases hstep
      refine ⟨Recorded.settle ?_ tid, ?_⟩
      · exact h.recorded.enter hx rfl rfl
      · unfold settle
        split_ifs <;> exact h.refines.congr rfl rfl rfl rfl
    · cases hstep
  | proceed tid =>
    obtain ⟨pid, c, hpc, hcall, hcase⟩ := proceed_cases hs
    obtain ⟨_, _, hstore, _⟩ := loadPage_frame env s pid
    have hload : ({ (s.loadPage env pid).1 with sys := { s.sys with
        lm := s.sys.lm.record tid pid, pc := Function.update s.sys.pc tid .idle } } :
        BufferPool Tid).PoolInv :=
      ⟨h.locked.load, h.recorded.load hpc, (h.refines.load env pid).congr rfl rfl rfl rfl⟩
    rcases hcase with ⟨_, rfl⟩ | ⟨page, hpage, hvisit⟩
    · exact ⟨hload.recorded.congr rfl fun _ hw => hw, hload.refines.congr rfl rfl rfl rfl⟩
    · have hrec : (s.sys.lm.record tid pid).pagesHoldsByTrans tid =
          s.sys.lm.pagesHoldsByTrans tid ++ [pid] := Function.update_self ..
      refine hload.visit ((loadPage_pages env s pid).2.2.2 page hpage) ?_ ?_ hvisit
      · simp only [hrec]
        exact List.mem_append_right _ (List.mem_singleton_self pid)
      · rintro tableId t ind fresh rfl
        have hkl := h.keepsLocks hok
        simp only [KeepsRecord, KeepsLocks, hpc, hcall] at hok hkl
        have hnot : pid ∉ s.sys.lm.pagesHoldsByTrans tid := fun hmem => by
          rw [holdsLock_iff.mpr hmem] at hok
          cases hok.2
        refine ⟨hok.1 page hpage, ?_, ?_⟩
        · simp only [hrec, List.erase_append_right _ hnot, List.erase_cons_head, List.append_nil]
          exact hnot
        · rw [hstore]
          exact hkl.2
  | transactionComplete tid commit =>
    simp only [step] at hs
    split at hs
    · exact h.transactionComplete hs
    · cases hs

theorem poolInv_init (tables : ℤ → List HeapPage) : (init tables : BufferPool Tid).PoolInv where
  locked := ⟨fun _ => .inr ⟨rfl, List.nodup_nil⟩, by rintro _ _ _ ⟨⟩, by rintro _ _ _ _ ⟨⟩,
    fun _ hw => (List.not_mem_nil hw).elim⟩
  recorded := ⟨by rintro _ _ ⟨⟩, by rintro _ _ ⟨⟩, fun _ hw => (List.not_mem_nil hw).elim⟩
  refines := by
    refine ⟨fun _ => rfl, by rintro _ _ ⟨⟩, fun _ hw => (List.not_mem_nil hw).elim, ?_⟩
    intro tableId n hn
    have hnn : ¬ ((n : ℕ) : ℤ) < 0 := by omega
    simp only [init, if_neg hnn, Int.toNat_natCast]
    rw [List.getElem?_eq_none hn]
    rfl

end BufferPool

end Courses.SimpleDb
