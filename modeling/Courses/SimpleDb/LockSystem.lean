import Courses.SimpleDb.LockManager

/-!
# Interleaved transactions on one lock manager

Every transaction is a thread that calls `acquireLock`, `releasePage` and
`releasePages` in any order. `LockSystem` holds the lock manager and where each
thread stands, `LockSystem.step` lets one thread take its next atomic step, and
a run takes these steps in any order. The main result of the module is mutual
exclusion in every state of every run.
-/
set_option linter.unusedSectionVars false

namespace Courses.SimpleDb

open Relation Courses.Lib

/-- Where the thread of a transaction stands. Between `lock.wait()` and its next
pass a woken thread contends for the monitor as `notified`; the local variable
`deps` of the acquire lives in these two states. -/
inductive Pc (Tid Pid : Type)
  | idle
  | waiting (pid : Pid) (perm : Permissions) (deps : List Tid)
  | notified (pid : Pid) (perm : Permissions) (deps : List Tid)
  /-- the lock is taken, the page not yet recorded by `acquireLock` -/
  | acquired (pid : Pid)
  /-- the lock is given up, the page not yet removed by `releasePage` -/
  | released (pid : Pid)
  /-- inside the loop of `releasePages`, with the pages still to come -/
  | releasing (rest : List Pid)
  deriving DecidableEq

/-- The lock manager, the threads, and two facts about the past of a transaction
that no method reads: `aborted` since an acquire threw and until the next
`releasePages` is done, `gaveUp` since it released a lock for the first time. -/
structure LockSystem (Tid Pid : Type) where
  lm : LockManager Tid Pid
  pc : Tid → Pc Tid Pid
  aborted : Tid → Bool
  gaveUp : Tid → Bool

/-- One atomic step of one thread. `wake` is the return of a `wait()` that no
release caused: a spurious wake-up or an interrupt, which the loop swallows. -/
inductive LockEvent (Tid Pid : Type)
  | acquireLock (tid : Tid) (pid : Pid) (perm : Permissions)
  | wake (tid : Tid)
  | resume (tid : Tid)
  | record (tid : Tid)
  | releasePage (tid : Tid) (pid : Pid)
  | unrecord (tid : Tid)
  | releasePages (tid : Tid)
  | releaseNext (tid : Tid)
  deriving DecidableEq

namespace LockSystem

variable {Tid Pid : Type} [DecidableEq Tid] [DecidableEq Pid]

def init : LockSystem Tid Pid where
  lm := LockManager.getLockManager
  pc _ := .idle
  aborted _ := false
  gaveUp _ := false

/-- `lock.notifyAll()` on the lock object of a page. -/
@[grind]
def notifyAll (pc : Tid → Pc Tid Pid) (pid : Pid) (tid : Tid) : Pc Tid Pid :=
  match pc tid with
  | .waiting p perm deps => if p = pid then .notified p perm deps else .waiting p perm deps
  | q => q

/-- One pass of the acquire loop by `tid`, and where it leaves the thread. -/
@[grind]
def enter (closesCycle : List (Tid × Tid) → Tid → Tid → Bool) (s : LockSystem Tid Pid)
    (tid : Tid) (pid : Pid) (perm : Permissions) (deps : List Tid) : LockSystem Tid Pid :=
  match s.lm.tryAquire closesCycle tid pid perm deps with
  | (.granted, lm, _) => { s with lm := lm, pc := Function.update s.pc tid (.acquired pid) }
  | (.wait, lm, deps') =>
    { s with lm := lm, pc := Function.update s.pc tid (.waiting pid perm deps') }
  | (.abort, lm, _) =>
    { s with
      lm := lm
      pc := Function.update s.pc tid .idle
      aborted := Function.update s.aborted tid true }

/-- The synchronized section of `releaseLock`, after which the thread is at `next`. -/
def release (s : LockSystem Tid Pid) (tid : Tid) (pid : Pid) (next : Pc Tid Pid) :
    LockSystem Tid Pid :=
  { s with
    lm := s.lm.releaseLock tid pid
    pc := Function.update (notifyAll s.pc pid) tid next
    gaveUp := Function.update s.gaveUp tid true }

@[grind]
def step (closesCycle : List (Tid × Tid) → Tid → Tid → Bool) (s : LockSystem Tid Pid) :
    LockEvent Tid Pid → Option (LockSystem Tid Pid)
  | .acquireLock tid pid perm =>
    match s.pc tid with
    | .idle => some (s.enter closesCycle tid pid perm [])
    | _ => none
  | .wake tid =>
    match s.pc tid with
    | .waiting pid perm deps =>
      some { s with pc := Function.update s.pc tid (.notified pid perm deps) }
    | _ => none
  | .resume tid =>
    match s.pc tid with
    | .notified pid perm deps => some (s.enter closesCycle tid pid perm deps)
    | _ => none
  | .record tid =>
    match s.pc tid with
    | .acquired pid =>
      some { s with lm := s.lm.record tid pid, pc := Function.update s.pc tid .idle }
    | _ => none
  | .releasePage tid pid =>
    match s.pc tid with
    | .idle => some (s.release tid pid (.released pid))
    | _ => none
  | .unrecord tid =>
    match s.pc tid with
    | .released pid =>
      some { s with lm := s.lm.unrecord tid pid, pc := Function.update s.pc tid .idle }
    | _ => none
  | .releasePages tid =>
    match s.pc tid with
    | .idle =>
      some { s with pc := Function.update s.pc tid (.releasing (s.lm.pagesHoldsByTrans tid)) }
    | _ => none
  | .releaseNext tid =>
    match s.pc tid with
    | .releasing (pid :: rest) => some (s.release tid pid (.releasing rest))
    | .releasing [] =>
      some { s with
        lm := s.lm.clearRecord tid
        pc := Function.update s.pc tid .idle
        aborted := Function.update s.aborted tid false }
    | _ => none

variable {closesCycle : List (Tid × Tid) → Tid → Tid → Bool}

/-- `e` makes the thread of `tid` run the acquire loop for `pid`. -/
inductive Enters (s : LockSystem Tid Pid) :
    LockEvent Tid Pid → Tid → Pid → Permissions → List Tid → Prop
  | start {tid pid perm} (h : s.pc tid = .idle) :
      Enters s (.acquireLock tid pid perm) tid pid perm []
  | again {tid pid perm deps} (h : s.pc tid = .notified pid perm deps) :
      Enters s (.resume tid) tid pid perm deps

/-- `e` makes the thread of `tid` give up `pid` and go to `next`. -/
inductive Releases (s : LockSystem Tid Pid) : LockEvent Tid Pid → Tid → Pid → Pc Tid Pid → Prop
  | one {tid pid} (h : s.pc tid = .idle) :
      Releases s (.releasePage tid pid) tid pid (.released pid)
  | next {tid pid rest} (h : s.pc tid = .releasing (pid :: rest)) :
      Releases s (.releaseNext tid) tid pid (.releasing rest)

/-- Everything a step can do. -/
inductive Stepped (closesCycle : List (Tid × Tid) → Tid → Tid → Bool) (s : LockSystem Tid Pid)
    (e : LockEvent Tid Pid) : LockSystem Tid Pid → Prop
  | enter {tid pid perm deps} (h : s.Enters e tid pid perm deps) :
      Stepped closesCycle s e (s.enter closesCycle tid pid perm deps)
  | release {tid pid next} (h : s.Releases e tid pid next) :
      Stepped closesCycle s e (s.release tid pid next)
  | wake {tid pid perm deps} (h : s.pc tid = .waiting pid perm deps) :
      Stepped closesCycle s e
        { s with pc := Function.update s.pc tid (.notified pid perm deps) }
  | record {tid pid} (h : s.pc tid = .acquired pid) :
      Stepped closesCycle s e
        { s with lm := s.lm.record tid pid, pc := Function.update s.pc tid .idle }
  | unrecord {tid pid} (h : s.pc tid = .released pid) :
      Stepped closesCycle s e
        { s with lm := s.lm.unrecord tid pid, pc := Function.update s.pc tid .idle }
  | begin {tid} (h : s.pc tid = .idle) :
      Stepped closesCycle s e { s with
        pc := Function.update s.pc tid (.releasing (s.lm.pagesHoldsByTrans tid)) }
  | finish {tid} (h : s.pc tid = .releasing []) :
      Stepped closesCycle s e { s with
        lm := s.lm.clearRecord tid
        pc := Function.update s.pc tid .idle
        aborted := Function.update s.aborted tid false }

theorem stepped {s s' : LockSystem Tid Pid} {e : LockEvent Tid Pid}
    (h : s.step closesCycle e = some s') : Stepped closesCycle s e s' := by
  cases e with
  | acquireLock tid pid perm =>
    simp only [step] at h
    split at h
    · next hp => cases h; exact .enter (.start hp)
    · cases h
  | wake tid =>
    simp only [step] at h
    split at h
    · next hp => cases h; exact .wake hp
    · cases h
  | resume tid =>
    simp only [step] at h
    split at h
    · next hp => cases h; exact .enter (.again hp)
    · cases h
  | record tid =>
    simp only [step] at h
    split at h
    · next hp => cases h; exact .record hp
    · cases h
  | releasePage tid pid =>
    simp only [step] at h
    split at h
    · next hp => cases h; exact .release (.one hp)
    · cases h
  | unrecord tid =>
    simp only [step] at h
    split at h
    · next hp => cases h; exact .unrecord hp
    · cases h
  | releasePages tid =>
    simp only [step] at h
    split at h
    · next hp => cases h; exact .begin hp
    · cases h
  | releaseNext tid =>
    simp only [step] at h
    split at h
    · next hp => cases h; exact .release (.next hp)
    · next hp => cases h; exact .finish hp
    · cases h

theorem enter_lm (s : LockSystem Tid Pid) (tid : Tid) (pid : Pid) (perm : Permissions)
    (deps : List Tid) :
    (s.enter closesCycle tid pid perm deps).lm =
      (s.lm.tryAquire closesCycle tid pid perm deps).2.1 := by
  unfold enter
  split <;> simp_all

end LockSystem

/-! ## Mutual exclusion -/

namespace LockManager

variable {Tid Pid : Type} [DecidableEq Tid] [DecidableEq Pid]
variable {closesCycle : List (Tid × Tid) → Tid → Tid → Bool}

/-- Only the entries of the two lock maps at the page matter. -/
theorem Exclusive.congr {lm lm' : LockManager Tid Pid} {pid : Pid} (h : lm.Exclusive pid)
    (ho : lm'.ownerTrans pid = lm.ownerTrans pid) (hs : lm'.sharedTrans pid = lm.sharedTrans pid) :
    lm'.Exclusive pid := by
  unfold Exclusive
  rw [ho, hs]
  exact h

theorem Exclusive.not_shared {lm : LockManager Tid Pid} {pid : Pid} (h : lm.Exclusive pid)
    {tid : Tid} (ho : lm.ownerTrans pid = some tid) : lm.sharedTrans pid = [] := by
  rcases h with ⟨_, _, hs⟩ | ⟨hn, _⟩
  · exact hs
  · simp [hn] at ho

theorem Exclusive.not_holds {lm : LockManager Tid Pid} {pid : Pid} (h : lm.Exclusive pid)
    {tid other : Tid} (ho : lm.ownerTrans pid = some tid) (hne : tid ≠ other) :
    ¬ lm.Holds other pid := by
  rintro (hown | hmem)
  · exact hne (Option.some.inj (ho.symm.trans hown))
  · simp [h.not_shared ho] at hmem

theorem tryAquire_exclusive {lm : LockManager Tid Pid} (h : ∀ p, lm.Exclusive p) (tid : Tid)
    (pid : Pid) (perm : Permissions) (deps : List Tid) (p : Pid) :
    (lm.tryAquire closesCycle tid pid perm deps).2.1.Exclusive p := by
  have hp := lm.passed closesCycle tid pid perm deps
  generalize lm.tryAquire closesCycle tid pid perm deps = r at hp
  by_cases hpp : p = pid
  · subst hpp
    cases hp with
    | already _ _ => exact h p
    | own hs ho => exact .inl ⟨tid, by simp, by simp [hs]⟩
    | upgrade hs ho => exact .inl ⟨tid, by simp, by simp⟩
    | share hs ho =>
      refine .inr ⟨by simp [addSharer, ho], ?_⟩
      have hnd : (lm.sharedTrans p).Nodup := by
        rcases h p with ⟨_, ho', _⟩ | ⟨_, hnd⟩
        · simp [ho] at ho'
        · exact hnd
      have hcat : (lm.sharedTrans p ++ [tid]).Nodup :=
        List.nodup_append.mpr ⟨hnd, List.nodup_singleton _, by
          intro a ha b hb
          rw [List.mem_singleton.mp hb]
          exact fun hab => hs (hab ▸ ha)⟩
      simpa [addSharer] using hcat
    | behindOwner holder _ _ _ =>
      obtain ⟨ho', hs', _⟩ := lm.waitFor_locks closesCycle tid [holder]
      exact (h p).congr (by rw [ho']) (by rw [hs'])
    | behindReaders _ _ _ =>
      obtain ⟨ho', hs', _⟩ := lm.waitFor_locks closesCycle tid (lm.sharedTrans p)
      exact (h p).congr (by rw [ho']) (by rw [hs'])
  · -- The other pages keep both entries.
    refine (h p).congr ?_ ?_ <;> cases hp <;>
      simp [addSharer, Function.update_of_ne hpp, (lm.waitFor_locks closesCycle tid _).1,
        (lm.waitFor_locks closesCycle tid _).2.1]

theorem releaseLock_exclusive {lm : LockManager Tid Pid} (h : ∀ p, lm.Exclusive p) (tid : Tid)
    (pid p : Pid) : (lm.releaseLock tid pid).Exclusive p := by
  by_cases hpp : p = pid
  · subst hpp
    rcases h p with ⟨t, ho, hs⟩ | ⟨ho, hnd⟩
    · by_cases ht : t = tid
      · subst ht
        exact .inr ⟨by simp [releaseLock, ho], by simp [releaseLock, hs]⟩
      · exact .inl ⟨t, by simp [releaseLock, ho, ht], by simp [releaseLock, hs]⟩
    · refine .inr ⟨by simp [releaseLock, ho], ?_⟩
      simpa [releaseLock] using hnd.erase tid
  · refine (h p).congr ?_ ?_
    · simp only [releaseLock]
      split_ifs <;> simp [Function.update_of_ne hpp]
    · simp [releaseLock, Function.update_of_ne hpp]

end LockManager

namespace LockSystem

variable {Tid Pid : Type} [DecidableEq Tid] [DecidableEq Pid]
variable {closesCycle : List (Tid × Tid) → Tid → Tid → Bool}

theorem exclusive_step {s s' : LockSystem Tid Pid} {e : LockEvent Tid Pid}
    (h : ∀ p, s.lm.Exclusive p) (hs : s.step closesCycle e = some s') :
    ∀ p, s'.lm.Exclusive p := by
  intro p
  cases stepped hs with
  | enter _ =>
    rw [enter_lm]
    exact LockManager.tryAquire_exclusive h _ _ _ _ p
  | release _ => exact LockManager.releaseLock_exclusive h _ _ p
  | wake _ => exact h p
  | record _ => exact (h p).congr rfl rfl
  | unrecord _ => exact (h p).congr rfl rfl
  | begin _ => exact h p
  | finish _ => exact (h p).congr rfl rfl

theorem exclusive_reaches {ok : LockSystem Tid Pid → LockEvent Tid Pid → Prop}
    {s : LockSystem Tid Pid} (h : Reaches (step closesCycle) ok init s) :
    ∀ p, s.lm.Exclusive p :=
  h.invariant (fun _ => .inr ⟨rfl, List.nodup_nil⟩) fun _ _ _ hi _ hs => exclusive_step hi hs

/-- In every state of every run each page has one owner and no sharers, or no
owner and distinct sharers, whatever the graph library answers. -/
theorem mutual_exclusion {s : LockSystem Tid Pid} (h : Reachable (step closesCycle) init s)
    (pid : Pid) :
    s.lm.Exclusive pid ∧ ∀ tid other, tid ≠ other → s.lm.ownerTrans pid = some tid →
      ¬ s.lm.Holds other pid :=
  ⟨exclusive_reaches h pid, fun _ _ hne ho => (exclusive_reaches h pid).not_holds ho hne⟩

/-- Two sharers, one of which upgrades once the other has released the page. -/
theorem mutual_exclusion_upgrade :
    ∃ s, Reachable (step LockManager.searchCycle) (init : LockSystem ℕ ℕ) s ∧
      s.lm.ownerTrans 0 = some 1 ∧ ¬ s.lm.Holds 2 0 := by
  obtain ⟨s, hs⟩ : ∃ s, runWhile (step LockManager.searchCycle) (fun _ _ => true)
      (init : LockSystem ℕ ℕ)
      [.acquireLock 1 0 .readOnly, .record 1, .acquireLock 2 0 .readOnly, .record 2,
        .acquireLock 1 0 .readWrite, .releasePage 2 0, .resume 1] = some s := ⟨_, rfl⟩
  have hr := reachable_runWhile _ hs
  have ho : s.lm.ownerTrans 0 = some 1 := by
    cases hs
    rfl
  exact ⟨s, hr, ho, (mutual_exclusion hr 0).2 1 2 (by decide) ho⟩

end LockSystem

end Courses.SimpleDb
