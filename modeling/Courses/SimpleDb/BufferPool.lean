import Courses.Lib.TxStore
import Courses.SimpleDb.LockEffects
import Courses.SimpleDb.PageRoundTrip

/-!
# The buffer pool

`BufferPool.java` and the parts of `HeapFile.java` it calls, over the lock
manager. A transaction is one thread; the code from one lock request to the next
is one step, and a thread inside a request can be overtaken by any other. Every
step does its locking through steps of `LockSystem`.

A page on disk is the page its bytes decode to: `writePage` leaves the image of
the page it is given (`HeapPage.new_getPageData`). Tables are the catalog's heap
files, by table id. Besides the state of the program a `BufferPool` carries the
transactional store its users are promised, which no method reads.
-/
set_option linter.unusedSectionVars false

namespace Courses.SimpleDb

open Courses.Lib

/-- The fields of a tuple. -/
abbrev Row := List (Option Field)

/-- The rows of a page by slot number. -/
def HeapPage.contents (page : HeapPage) (i : ℤ) : Option Row :=
  if i < 0 then none else (page.occupant i.toNat).map Tuple.fields

/-- A page in the pool, with the answer of its `isDirty`. -/
structure Page (Tid : Type) where
  heap : HeapPage
  dirty : Option Tid

/-- A call in progress: what is left to do when its lock request returns. An
insertion is at page `ind` of its table, in the end on a page of its own making. -/
inductive Call
  | getPage
  | insertTuple (tableId : ℤ) (t : Tuple) (ind : ℕ) (fresh : Bool)
  | deleteTuple (t : Tuple)

/-- What does not change: the graph library, the charset, the schemas of the
catalog and the size of the pool. -/
structure Env (Tid : Type) where
  closesCycle : List (Tid × Tid) → Tid → Tid → Bool
  decode : List UInt8 → List UInt16
  catalog : ℤ → Option TupleDesc
  maxPages : ℤ

/-- `_pages` is in insertion order, `_pageids` in queue order. -/
structure BufferPool (Tid : Type) where
  sys : LockSystem Tid HeapPageId
  call : Tid → Option Call
  pages : List (HeapPageId × Page Tid)
  pageids : List HeapPageId
  numPages : ℤ → ℕ
  disk : HeapPageId → Option HeapPage
  store : TxStore Tid HeapPageId ℤ (Option Row)

inductive PoolEvent (Tid : Type)
  | getPage (tid : Tid) (pid : HeapPageId) (perm : Permissions)
  | insertTuple (tid : Tid) (tableId : ℤ) (t : Tuple)
  | deleteTuple (tid : Tid) (t : Tuple)
  | wake (tid : Tid)
  | resume (tid : Tid)
  | proceed (tid : Tid)
  | transactionComplete (tid : Tid) (commit : Bool)

/-! ## `LinkedHashMap` -/

section LinkedHashMap

variable {α β : Type} [DecidableEq α]

/-- `put` keeps the place of a key that is there. -/
def put (m : List (α × β)) (k : α) (v : β) : List (α × β) :=
  if (m.lookup k).isSome then m.map fun e => if e.1 = k then (k, v) else e
  else m ++ [(k, v)]

def remove (m : List (α × β)) (k : α) : List (α × β) := m.filter (·.1 ≠ k)

theorem lookup_map_ite (m : List (α × β)) (k j : α) (v : β) :
    (m.map fun e => if e.1 = k then (k, v) else e).lookup j =
      if j = k then (m.lookup k).map fun _ => v else m.lookup j := by
  induction m with
  | nil => simp
  | cons e m ih =>
    obtain ⟨a, b⟩ := e
    by_cases hak : a = k
    · subst hak
      by_cases hj : j = a
      · subst hj
        simp
      · have hne : (j == a) = false := by simpa using hj
        simp only [List.map_cons, if_true, List.lookup_cons, hne, ih, if_neg hj]
    · have hka : (k == a) = false := by simpa using Ne.symm hak
      simp only [List.map_cons, if_neg hak, List.lookup_cons, ih, hka]
      by_cases hj : j = k
      · subst hj
        simp [hka]
      · simp [hj]

theorem lookup_put (m : List (α × β)) (k j : α) (v : β) :
    (put m k v).lookup j = if j = k then some v else m.lookup j := by
  unfold put
  cases hk : m.lookup k with
  | some b => simp [lookup_map_ite, hk]
  | none =>
    rw [if_neg (by simp), List.lookup_append]
    by_cases hj : j = k
    · subst hj
      simp [hk]
    · have hne : (j == k) = false := by simpa using hj
      rw [if_neg hj, List.lookup_cons, hne]
      simp

theorem lookup_remove (m : List (α × β)) (k j : α) :
    (remove m k).lookup j = if j = k then none else m.lookup j := by
  unfold remove
  induction m with
  | nil => simp
  | cons e m ih =>
    obtain ⟨a, b⟩ := e
    by_cases hak : a = k
    · subst hak
      rw [List.filter_cons_of_neg (by simp), ih, List.lookup_cons]
      by_cases hj : j = a
      · simp [hj]
      · have hne : (j == a) = false := by simpa using hj
        rw [hne]
    · rw [List.filter_cons_of_pos (by simpa using hak), List.lookup_cons, List.lookup_cons, ih]
      by_cases hj : j = k
      · have hne : (k == a) = false := by simpa using Ne.symm hak
        rw [hj, hne, if_pos rfl]
      · rw [if_neg hj, if_neg hj]

end LinkedHashMap

namespace BufferPool

variable {Tid : Type} [DecidableEq Tid]

/-- A pool over tables with the given pages on disk. -/
def init (tables : ℤ → List HeapPage) : BufferPool Tid :=
  let disk pid := if pid.pgNo < 0 then none else (tables pid.tableId)[pid.pgNo.toNat]?
  { sys := LockSystem.init
    call := fun _ => none
    pages := []
    pageids := []
    numPages := fun tableId => (tables tableId).length
    disk := disk
    store := ⟨fun pid => (disk pid).map HeapPage.contents, []⟩ }

/-- A call returns or throws. -/
def endCall (s : BufferPool Tid) (tid : Tid) : BufferPool Tid :=
  { s with call := Function.update s.call tid none }

/-- Steps of the lock manager, one after the other. -/
def locks (env : Env Tid) (s : BufferPool Tid) (es : List (LockEvent Tid HeapPageId)) :
    Option (BufferPool Tid) :=
  (runWhile (LockSystem.step env.closesCycle) (fun _ _ => true) s.sys es).map
    fun sys => { s with sys := sys }

/-- After a lock step of a thread inside a call: a thread that is not in the
lock manager any more was aborted, and so was its call. -/
def settle (s : BufferPool Tid) (tid : Tid) : BufferPool Tid :=
  if s.sys.pc tid = .idle then s.endCall tid else s

/-- The lock request of `getPage`, made by the call `c`. -/
def acquireLock (env : Env Tid) (s : BufferPool Tid) (tid : Tid) (pid : HeapPageId)
    (perm : Permissions) (c : Call) : Option (BufferPool Tid) :=
  (s.locks env [.acquireLock tid pid perm]).map fun s =>
    settle { s with call := Function.update s.call tid (some c) } tid

/-- `HeapFile.readPage` -/
def readPage (s : BufferPool Tid) (pid : HeapPageId) : Option HeapPage :=
  (s.disk pid).map fun page => { page with pid := pid }

/-- `HeapFile.writePage` on the file of a table. -/
def writePage (s : BufferPool Tid) (tableId : ℤ) (page : HeapPage) : BufferPool Tid :=
  { s with disk := Function.update s.disk ⟨tableId, page.pid.pgNo⟩ (some page.image) }

def flushPage (s : BufferPool Tid) (pid : HeapPageId) : BufferPool Tid :=
  match s.pages.lookup pid with
  | none => s
  | some page =>
    match page.dirty with
    | none => s
    | some _ =>
      { s.writePage pid.tableId page.heap with
        pages := put s.pages pid { page with dirty := none } }

/-- The loop of `evictPage`, with the passes it has left before `cnt` is the size
of the queue. A dirty page goes back to the end of the queue. -/
def evictLoop (s : BufferPool Tid) : ℕ → BufferPool Tid × Bool
  | 0 => (s, false)
  | n + 1 =>
    match s.pageids with
    | [] => (s, false)
    | pid :: rest =>
      match s.pages.lookup pid with
      | none => ({ s with pageids := rest }, false)
      | some page =>
        match page.dirty with
        | some _ => evictLoop { s with pageids := rest ++ [pid] } n
        | none =>
          let s := ({ s with pageids := rest } : BufferPool Tid).flushPage pid
          ({ s with pages := remove s.pages pid }, true)

/-- `evictPage`, with `false` for an exception. -/
def evictPage (s : BufferPool Tid) : BufferPool Tid × Bool := s.evictLoop s.pageids.length

/-- If this BufferPool is full, evict one page. -/
def makeRoom (env : Env Tid) (s : BufferPool Tid) : BufferPool Tid × Bool :=
  if (s.pageids.length : ℤ) = env.maxPages then s.evictPage else (s, true)

/-- The rest of `getPage` once its lock is granted; no page for an exception. -/
def loadPage (env : Env Tid) (s : BufferPool Tid) (pid : HeapPageId) :
    BufferPool Tid × Option (Page Tid) :=
  match s.pages.lookup pid with
  | some page => (s, some page)
  | none =>
    match s.makeRoom env with
    | (s, false) => (s, none)
    | (s, true) =>
      match s.readPage pid with
      | none => (s, none)
      | some heap =>
        let page : Page Tid := ⟨heap, none⟩
        ({ s with pages := put s.pages pid page, pageids := s.pageids ++ [pid] }, some page)

/-- `HeapFile.addTuple` from the `ind`-th page of the table on: the next page to
visit, or a new one if there is none. -/
def addTuple (env : Env Tid) (s : BufferPool Tid) (tid : Tid) (tableId : ℤ) (t : Tuple)
    (ind : ℕ) : Option (BufferPool Tid) :=
  if ind < s.numPages tableId then
    s.acquireLock env tid ⟨tableId, ind⟩ .readWrite (.insertTuple tableId t ind false)
  else
    let pid : HeapPageId := ⟨tableId, s.numPages tableId⟩
    let s := { s with numPages := Function.update s.numPages tableId (s.numPages tableId + 1) }
    match (env.catalog tableId).map
        fun td => HeapPage.new env.decode pid td HeapPage.createEmptyPageData with
    | some (.ok page) =>
      let s := { s.writePage tableId page with store := s.store.create pid page.contents }
      s.acquireLock env tid pid .readWrite (.insertTuple tableId t ind true)
    | _ => some (s.endCall tid)

/-- `releasePage` of the lock manager. -/
def releasePage (env : Env Tid) (s : BufferPool Tid) (tid : Tid) (pid : HeapPageId) :
    Option (BufferPool Tid) :=
  s.locks env [.releasePage tid pid, .unrecord tid]

/-- What a call does with the page it asked for, up to its next lock request. -/
def visit (env : Env Tid) (s : BufferPool Tid) (tid : Tid) (pid : HeapPageId) (page : Page Tid) :
    Call → Option (BufferPool Tid)
  | .getPage => some (s.endCall tid)
  | .deleteTuple t =>
    match page.heap.deleteTuple t, t.rid with
    | .ok heap, some rid =>
      some ({ s with
        pages := put s.pages pid ⟨heap, some tid⟩
        store := s.store.write ⟨tid, pid, rid.tupleno, none⟩ }.endCall tid)
    | _, _ => some (s.endCall tid)
  | .insertTuple tableId t ind fresh =>
    if getNumEmptySlots page.heap.header ≠ 0 then
      match page.heap.addTuple t with
      | .error _ => some (s.endCall tid)
      | .ok heap =>
        let s := { s with
          pages := put s.pages pid ⟨heap, some tid⟩
          store := s.store.write ⟨tid, pid, page.heap.getFirstEmptySlot, some t.fields⟩ }
        (s.releasePage env tid pid).map fun s => s.endCall tid
    else
      (s.releasePage env tid pid).bind fun s =>
        if fresh then some (s.endCall tid) else s.addTuple env tid tableId t (ind + 1)

/-- The loop of an aborting `transactionComplete` over the pages of the pool. -/
def rereadPages (s : BufferPool Tid) (tid : Tid) : List HeapPageId → BufferPool Tid × Bool
  | [] => (s, true)
  | pid :: pids =>
    if s.sys.lm.holdsLock tid pid then
      match s.readPage pid with
      | none => (s, false)
      | some heap => rereadPages { s with pages := put s.pages pid ⟨heap, none⟩ } tid pids
    else rereadPages s tid pids

/-- The loop of a committing `transactionComplete`. -/
def flushPages (s : BufferPool Tid) (tid : Tid) (pids : List HeapPageId) : BufferPool Tid :=
  pids.foldl (fun s pid => if s.sys.lm.holdsLock tid pid then s.flushPage pid else s) s

/-- `releasePages` of the lock manager. -/
def releasePages (env : Env Tid) (s : BufferPool Tid) (tid : Tid) : Option (BufferPool Tid) :=
  s.locks env (.releasePages tid ::
    List.replicate ((s.sys.lm.pagesHoldsByTrans tid).length + 1) (.releaseNext tid))

def transactionComplete (env : Env Tid) (s : BufferPool Tid) (tid : Tid) (commit : Bool) :
    Option (BufferPool Tid) :=
  if commit then
    let s := s.flushPages tid (s.pages.map Prod.fst)
    { s with store := s.store.commit tid }.releasePages env tid
  else
    match s.rereadPages tid (s.pages.map Prod.fst) with
    | (s, true) => { s with store := s.store.abort tid }.releasePages env tid
    | (s, false) => some s

def step (env : Env Tid) (s : BufferPool Tid) : PoolEvent Tid → Option (BufferPool Tid)
  | .getPage tid pid perm =>
    match s.call tid with
    | none => s.acquireLock env tid pid perm .getPage
    | some _ => none
  | .insertTuple tid tableId t =>
    match s.call tid, env.catalog tableId with
    | none, some _ => s.addTuple env tid tableId t 0
    | _, _ => none
  | .deleteTuple tid t =>
    match s.call tid, t.rid with
    | none, some rid =>
      match env.catalog rid.pid.tableId with
      | some _ => s.acquireLock env tid rid.pid .readWrite (.deleteTuple t)
      | none => none
    | _, _ => none
  | .wake tid => s.locks env [.wake tid]
  | .resume tid => (s.locks env [.resume tid]).map fun s => s.settle tid
  | .proceed tid =>
    match s.sys.pc tid, s.call tid with
    | .acquired pid, some c =>
      (s.locks env [.record tid]).bind fun s =>
        match s.loadPage env pid with
        | (s, none) => some (s.endCall tid)
        | (s, some page) => s.visit env tid pid page c
    | _, _ => none
  | .transactionComplete tid commit =>
    match s.call tid with
    | none => s.transactionComplete env tid commit
    | some _ => none

/-- The rows of a page on disk and of a page in the pool. -/
def onDisk (s : BufferPool Tid) (pid : HeapPageId) : Option (ℤ → Option Row) :=
  (s.disk pid).map HeapPage.contents

def inPool (s : BufferPool Tid) (pid : HeapPageId) : Option (ℤ → Option Row) :=
  (s.pages.lookup pid).map fun page => page.heap.contents

end BufferPool

end Courses.SimpleDb
