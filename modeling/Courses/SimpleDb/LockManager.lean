import Courses.Lib.Digraph
import Courses.Lib.Runs

/-!
# The page lock manager of simpledb

`LockManager.java` keeps, for every page, at most one exclusive owner and a list
of sharers, and a dependency graph of the transactions that wait. A transaction
is one thread. Each `synchronized (lock)` section is one atomic step: a pass of
the loop of an acquire, or one `releaseLock`. Everything a method does outside
such a section (recording a page among those its transaction holds) is a step of
its own.

The graph is a `DirectedAcyclicGraph` of a library that is not part of the
repository. Whether its `addDagEdge` throws is the parameter `closesCycle`; the
vertex set only serves that class and is left out.
-/
set_option linter.unusedSectionVars false

namespace Courses.SimpleDb

open Relation Courses.Lib

/-- The two permission levels of `Permissions.java`. -/
inductive Permissions
  | readOnly
  | readWrite
  deriving DecidableEq, Repr

/-- The maps of the lock manager. A page without an entry in `_sharedTrans` is
treated everywhere like one with an empty list, and a transaction without an
entry in `_pagesHoldsByTrans` like one with an empty queue. -/
structure LockManager (Tid Pid : Type) where
  sharedTrans : Pid → List Tid
  ownerTrans : Pid → Option Tid
  pagesHoldsByTrans : Tid → List Pid
  dependency : List (Tid × Tid)

/-- How a pass of the acquire loop ends: with the lock, in `lock.wait()`, or with
a `TransactionAbortedException`. -/
inductive Outcome
  | granted
  | wait
  | abort
  deriving DecidableEq, Repr

namespace LockManager

variable {Tid Pid : Type} [DecidableEq Tid] [DecidableEq Pid]

def getLockManager : LockManager Tid Pid where
  sharedTrans _ := []
  ownerTrans _ := none
  pagesHoldsByTrans _ := []
  dependency := []

def hasReadPermissions (lm : LockManager Tid Pid) (tid : Tid) (pid : Pid) : Bool :=
  lm.ownerTrans pid == some tid || (lm.sharedTrans pid).contains tid

def hasWritePermissions (lm : LockManager Tid Pid) (tid : Tid) (pid : Pid) : Bool :=
  lm.ownerTrans pid == some tid

def addSharer (lm : LockManager Tid Pid) (tid : Tid) (pid : Pid) : LockManager Tid Pid :=
  { lm with sharedTrans := Function.update lm.sharedTrans pid (lm.sharedTrans pid ++ [tid]) }

/-- `_dependency.removeVertex(tid)`, which takes every edge at `tid` with it. -/
def removeVertex (E : List (Tid × Tid)) (tid : Tid) : List (Tid × Tid) :=
  E.filter fun e => e.1 ≠ tid ∧ e.2 ≠ tid

def removeDeps (lm : LockManager Tid Pid) (tid : Tid) (deps : List Tid) : LockManager Tid Pid :=
  { lm with dependency := deps.foldl (fun E dep => E.filter (· ≠ (tid, dep))) lm.dependency }

/-- The loop of `addDeps`: the graph when it stops, and whether it was stopped by
a `CycleFoundException`. -/
@[grind]
def addDepsLoop (closesCycle : List (Tid × Tid) → Tid → Tid → Bool) (tid : Tid) :
    List (Tid × Tid) → List Tid → List (Tid × Tid) × Bool
  | E, [] => (E, false)
  | E, dep :: rest =>
    if tid ≠ dep ∧ (tid, dep) ∉ E then
      if closesCycle E tid dep then (E, true)
      else addDepsLoop closesCycle tid ((tid, dep) :: E) rest
    else addDepsLoop closesCycle tid E rest

/-- The documented behaviour of `addDagEdge(a, b)`: it throws exactly when the
edge would close a cycle, that is when `b` already reaches `a`. -/
def DagEdgeSpec (closesCycle : List (Tid × Tid) → Tid → Tid → Bool) : Prop :=
  ∀ E a b, closesCycle E a b = true ↔ ReflTransGen (Edge E) b a

/-- An answer of the library that can be computed. -/
def searchCycle (E : List (Tid × Tid)) (a b : Tid) : Bool := pathSearch E b a

theorem dagEdgeSpec_searchCycle :
    DagEdgeSpec (searchCycle : List (Tid × Tid) → Tid → Tid → Bool) :=
  fun E a b => pathSearch_iff E b a

variable (closesCycle : List (Tid × Tid) → Tid → Tid → Bool)

/-- `addDeps`, with `true` for the `TransactionAbortedException`. -/
@[grind]
def addDeps (lm : LockManager Tid Pid) (tid : Tid) (deps : List Tid) :
    LockManager Tid Pid × Bool :=
  let r := addDepsLoop closesCycle tid lm.dependency deps
  if r.2 then ({ lm with dependency := removeVertex r.1 tid }, true)
  else ({ lm with dependency := r.1 }, false)

/-- The branch that has to wait for `deps`: the local variable is replaced and
the new dependencies are entered in the graph. -/
@[grind]
def waitFor (lm : LockManager Tid Pid) (tid : Tid) (deps : List Tid) :
    Outcome × LockManager Tid Pid × List Tid :=
  let r := lm.addDeps closesCycle tid deps
  (if r.2 then .abort else .wait, r.1, deps)

/-- One pass of the loop of `tryAquireRWLockOrWait`, with the local `deps`. -/
@[grind]
def tryAquireRWLockOrWait (lm : LockManager Tid Pid) (tid : Tid) (pid : Pid)
    (deps : List Tid) : Outcome × LockManager Tid Pid × List Tid :=
  if lm.hasWritePermissions tid pid then (.granted, lm, deps)
  else if lm.sharedTrans pid = [] then
    match lm.ownerTrans pid with
    | none =>
      (.granted, removeDeps { lm with
        ownerTrans := Function.update lm.ownerTrans pid (some tid) } tid deps, deps)
    | some holder =>
      if holder = tid then
        (.granted, removeDeps { lm with
          ownerTrans := Function.update lm.ownerTrans pid (some tid) } tid deps, deps)
      else lm.waitFor closesCycle tid [holder]
  else if lm.sharedTrans pid = [tid] then
    -- The only reader is tid, upgrade lock's permission to RW
    (.granted, removeDeps { lm with
      ownerTrans := Function.update lm.ownerTrans pid (some tid)
      sharedTrans := Function.update lm.sharedTrans pid [] } tid deps, deps)
  else lm.waitFor closesCycle tid (lm.sharedTrans pid)

/-- One pass of the loop of `tryAquireROLockOrWait`. -/
@[grind]
def tryAquireROLockOrWait (lm : LockManager Tid Pid) (tid : Tid) (pid : Pid)
    (deps : List Tid) : Outcome × LockManager Tid Pid × List Tid :=
  if lm.hasReadPermissions tid pid then (.granted, lm, deps)
  else
    match lm.ownerTrans pid with
    | none => (.granted, (lm.removeDeps tid deps).addSharer tid pid, deps)
    | some holder => lm.waitFor closesCycle tid [holder]

/-- The dispatch of `acquireLock` on the requested permission. -/
@[grind]
def tryAquire (lm : LockManager Tid Pid) (tid : Tid) (pid : Pid) (perm : Permissions)
    (deps : List Tid) : Outcome × LockManager Tid Pid × List Tid :=
  match perm with
  | .readOnly => lm.tryAquireROLockOrWait closesCycle tid pid deps
  | .readWrite => lm.tryAquireRWLockOrWait closesCycle tid pid deps

/-- The end of `acquireLock`: the page joins the queue of its transaction. -/
def record (lm : LockManager Tid Pid) (tid : Tid) (pid : Pid) : LockManager Tid Pid :=
  { lm with pagesHoldsByTrans :=
      Function.update lm.pagesHoldsByTrans tid (lm.pagesHoldsByTrans tid ++ [pid]) }

/-- The removal of one occurrence at the end of `releasePage`. -/
def unrecord (lm : LockManager Tid Pid) (tid : Tid) (pid : Pid) : LockManager Tid Pid :=
  { lm with pagesHoldsByTrans :=
      Function.update lm.pagesHoldsByTrans tid ((lm.pagesHoldsByTrans tid).erase pid) }

/-- The `clear` at the end of `releasePages`. -/
def clearRecord (lm : LockManager Tid Pid) (tid : Tid) : LockManager Tid Pid :=
  { lm with pagesHoldsByTrans := Function.update lm.pagesHoldsByTrans tid [] }

@[grind]
def releaseLock (lm : LockManager Tid Pid) (tid : Tid) (pid : Pid) : LockManager Tid Pid :=
  { lm with
    ownerTrans :=
      if lm.ownerTrans pid = some tid then Function.update lm.ownerTrans pid none
      else lm.ownerTrans
    sharedTrans := Function.update lm.sharedTrans pid ((lm.sharedTrans pid).erase tid) }

def holdsLock (lm : LockManager Tid Pid) (tid : Tid) (pid : Pid) : Bool :=
  (lm.pagesHoldsByTrans tid).contains pid

/-! ## Who holds a page -/

/-- `tid` is the owner or one of the sharers of the page. -/
def Holds (lm : LockManager Tid Pid) (tid : Tid) (pid : Pid) : Prop :=
  lm.ownerTrans pid = some tid ∨ tid ∈ lm.sharedTrans pid

/-- Another transaction holds the page in a mode that excludes the request. -/
def Conflicts (lm : LockManager Tid Pid) (perm : Permissions) (pid : Pid) (tid other : Tid) : Prop :=
  other ≠ tid ∧ match perm with
    | .readOnly => lm.ownerTrans pid = some other
    | .readWrite => lm.Holds other pid

instance (lm : LockManager Tid Pid) (tid : Tid) (pid : Pid) : Decidable (lm.Holds tid pid) :=
  inferInstanceAs (Decidable (_ ∨ _))

instance (lm : LockManager Tid Pid) (perm : Permissions) (pid : Pid) (tid other : Tid) :
    Decidable (lm.Conflicts perm pid tid other) := by
  unfold Conflicts
  cases perm <;> infer_instance

/-- One page's lock: an owner and no sharers, or no owner and distinct sharers. -/
def Exclusive (lm : LockManager Tid Pid) (pid : Pid) : Prop :=
  (∃ tid, lm.ownerTrans pid = some tid ∧ lm.sharedTrans pid = []) ∨
    (lm.ownerTrans pid = none ∧ (lm.sharedTrans pid).Nodup)

theorem Conflicts.holds {lm : LockManager Tid Pid} {perm : Permissions} {pid : Pid} {tid other : Tid}
    (h : lm.Conflicts perm pid tid other) : lm.Holds other pid := by
  cases perm with
  | readOnly => exact .inl h.2
  | readWrite => exact h.2

/-! ## What a pass of the acquire loop can do -/

@[simp] theorem removeDeps_ownerTrans (lm : LockManager Tid Pid) (tid : Tid) (deps : List Tid) :
    (lm.removeDeps tid deps).ownerTrans = lm.ownerTrans := rfl

@[simp] theorem removeDeps_sharedTrans (lm : LockManager Tid Pid) (tid : Tid) (deps : List Tid) :
    (lm.removeDeps tid deps).sharedTrans = lm.sharedTrans := rfl

@[simp] theorem removeDeps_pagesHoldsByTrans (lm : LockManager Tid Pid) (tid : Tid)
    (deps : List Tid) : (lm.removeDeps tid deps).pagesHoldsByTrans = lm.pagesHoldsByTrans := rfl

theorem mem_foldl_filter (tid : Tid) (deps : List Tid) (E : List (Tid × Tid)) (e : Tid × Tid) :
    e ∈ deps.foldl (fun E dep => E.filter (· ≠ (tid, dep))) E ↔
      e ∈ E ∧ ¬ (e.1 = tid ∧ e.2 ∈ deps) := by
  induction deps generalizing E with
  | nil => simp
  | cons dep deps ih =>
    rw [List.foldl_cons, ih]
    obtain ⟨a, b⟩ := e
    simp only [List.mem_filter, decide_eq_true_eq, ne_eq, Prod.mk.injEq, List.mem_cons]
    tauto

theorem mem_removeDeps (lm : LockManager Tid Pid) (tid : Tid) (deps : List Tid) (a b : Tid) :
    (a, b) ∈ (lm.removeDeps tid deps).dependency ↔
      (a, b) ∈ lm.dependency ∧ ¬ (a = tid ∧ b ∈ deps) :=
  mem_foldl_filter tid deps lm.dependency (a, b)

theorem mem_removeVertex (E : List (Tid × Tid)) (tid a b : Tid) :
    (a, b) ∈ removeVertex E tid ↔ (a, b) ∈ E ∧ a ≠ tid ∧ b ≠ tid := by
  simp [removeVertex]

/-- The cases of one pass, with the state they leave behind. In the first the
transaction already has what it asks for; in the two that wait, `deps'` are the
holders the code looks up. -/
inductive Passed (lm : LockManager Tid Pid) (tid : Tid) (pid : Pid) (deps : List Tid) :
    Permissions → Outcome × LockManager Tid Pid × List Tid → Prop
  | already {perm : Permissions} (h : lm.Holds tid pid) (hw : perm = .readWrite →
      lm.ownerTrans pid = some tid) : Passed lm tid pid deps perm (.granted, lm, deps)
  | own (hs : lm.sharedTrans pid = []) (ho : lm.ownerTrans pid = none) :
      Passed lm tid pid deps .readWrite (.granted, removeDeps { lm with
        ownerTrans := Function.update lm.ownerTrans pid (some tid) } tid deps, deps)
  | upgrade (hs : lm.sharedTrans pid = [tid]) (ho : lm.ownerTrans pid ≠ some tid) :
      Passed lm tid pid deps .readWrite (.granted, removeDeps { lm with
        ownerTrans := Function.update lm.ownerTrans pid (some tid)
        sharedTrans := Function.update lm.sharedTrans pid [] } tid deps, deps)
  | share (hs : tid ∉ lm.sharedTrans pid) (ho : lm.ownerTrans pid = none) :
      Passed lm tid pid deps .readOnly
        (.granted, (lm.removeDeps tid deps).addSharer tid pid, deps)
  | behindOwner {perm : Permissions} (holder : Tid) (ho : lm.ownerTrans pid = some holder)
      (hne : holder ≠ tid) (hs : tid ∉ lm.sharedTrans pid) :
      Passed lm tid pid deps perm (lm.waitFor closesCycle tid [holder])
  | behindReaders (hs : lm.sharedTrans pid ≠ []) (hne : lm.sharedTrans pid ≠ [tid])
      (ho : lm.ownerTrans pid ≠ some tid) :
      Passed lm tid pid deps .readWrite (lm.waitFor closesCycle tid (lm.sharedTrans pid))

theorem passed (lm : LockManager Tid Pid) (tid : Tid) (pid : Pid) (perm : Permissions)
    (deps : List Tid) :
    lm.Passed closesCycle tid pid deps perm (lm.tryAquire closesCycle tid pid perm deps) := by
  cases perm with
  | readOnly =>
    simp only [tryAquire]
    unfold tryAquireROLockOrWait
    by_cases hr : lm.hasReadPermissions tid pid = true
    · rw [if_pos hr]
      have hh : lm.Holds tid pid := by simpa [Holds, hasReadPermissions] using hr
      exact .already hh nofun
    · rw [if_neg hr]
      have hn : lm.ownerTrans pid ≠ some tid ∧ tid ∉ lm.sharedTrans pid := by
        simpa [hasReadPermissions, not_or] using hr
      split
      · next ho => exact .share hn.2 ho
      · next holder ho => exact .behindOwner holder ho (fun h => hn.1 (by rw [ho, h])) hn.2
  | readWrite =>
    simp only [tryAquire]
    unfold tryAquireRWLockOrWait
    by_cases hw : lm.hasWritePermissions tid pid = true
    · rw [if_pos hw]
      have ho : lm.ownerTrans pid = some tid := by simpa [hasWritePermissions] using hw
      exact .already (.inl ho) fun _ => ho
    · rw [if_neg hw]
      have hn : lm.ownerTrans pid ≠ some tid := by simpa [hasWritePermissions] using hw
      by_cases hs : lm.sharedTrans pid = []
      · rw [if_pos hs]
        split
        · next ho => exact .own hs ho
        · next holder ho =>
          have hne : holder ≠ tid := fun h => hn (by rw [ho, h])
          rw [if_neg hne]
          exact .behindOwner holder ho hne (by simp [hs])
      · rw [if_neg hs]
        by_cases hs' : lm.sharedTrans pid = [tid]
        · rw [if_pos hs']
          exact .upgrade hs' hn
        · rw [if_neg hs']
          exact .behindReaders hs hs' hn

/-- Waiting leaves the locks alone. -/
theorem waitFor_locks (lm : LockManager Tid Pid) (tid : Tid) (deps : List Tid) :
    (lm.waitFor closesCycle tid deps).2.1.ownerTrans = lm.ownerTrans ∧
      (lm.waitFor closesCycle tid deps).2.1.sharedTrans = lm.sharedTrans ∧
      (lm.waitFor closesCycle tid deps).2.1.pagesHoldsByTrans = lm.pagesHoldsByTrans := by
  unfold waitFor addDeps
  dsimp only
  split_ifs <;> exact ⟨rfl, rfl, rfl⟩

theorem waitFor_not_granted (lm : LockManager Tid Pid) (tid : Tid) (deps : List Tid) :
    (lm.waitFor closesCycle tid deps).1 ≠ .granted := by
  unfold waitFor
  dsimp only
  split_ifs <;> simp

end LockManager

end Courses.SimpleDb
