import Courses.SimpleDb.DeadlockCoverage
import Courses.SimpleDb.PoolLocks

/-!
# The record of a transaction and its locks

`holdsLock` looks in the queue of pages that `acquireLock` and the two releases keep for a
transaction, and not in the maps of the locks. Every acquire adds the page again, `releasePage`
gives up the whole lock and takes one mention of the page off the queue. So the queue is right
as long as no page is released one by one that is in it more than once.
-/
set_option linter.unusedSectionVars false

namespace Courses.SimpleDb

open Courses.Lib

/-- The thread is in no call, or still blocked in `acquireLock`. -/
def Pc.Settled {Tid Pid : Type} : Pc Tid Pid → Prop
  | .idle | .waiting _ _ _ | .notified _ _ _ => True
  | .acquired _ | .released _ | .releasing _ => False

namespace LockSystem

variable {Tid Pid : Type} [DecidableEq Tid] [DecidableEq Pid]
variable {closesCycle : List (Tid × Tid) → Tid → Tid → Bool}
variable {s s' : LockSystem Tid Pid} {e : LockEvent Tid Pid} {tid : Tid}

/-- A page that is released by itself is in the queue of its transaction at most once. -/
def ReleasesOnce (s : LockSystem Tid Pid) : LockEvent Tid Pid → Prop
  | .releasePage tid pid => (s.lm.pagesHoldsByTrans tid).count pid ≤ 1
  | _ => True

instance (s : LockSystem Tid Pid) (e : LockEvent Tid Pid) : Decidable (s.ReleasesOnce e) :=
  match e with
  | .releasePage tid pid => inferInstanceAs (Decidable ((s.lm.pagesHoldsByTrans tid).count pid ≤ 1))
  | .acquireLock .. | .wake _ | .resume _ | .record _ | .unrecord _ | .releasePages _
  | .releaseNext _ => .isTrue trivial

/-- The pages that will be in the queue when the call of the thread is done; inside
`releasePages` it is about to be emptied. -/
def WillRecord (s : LockSystem Tid Pid) (tid : Tid) (p : Pid) : Prop :=
  match s.pc tid with
  | .acquired q => p ∈ s.lm.pagesHoldsByTrans tid ∨ p = q
  | .released q => p ∈ (s.lm.pagesHoldsByTrans tid).erase q
  | .releasing _ => False
  | _ => p ∈ s.lm.pagesHoldsByTrans tid

theorem willRecord_of_settled (h : (s.pc tid).Settled) (p : Pid) :
    s.WillRecord tid p ↔ p ∈ s.lm.pagesHoldsByTrans tid := by
  unfold WillRecord
  cases hpc : s.pc tid with
  | acquired q => exact (hpc ▸ h : (Pc.acquired q : Pc Tid Pid).Settled).elim
  | released q => exact (hpc ▸ h : (Pc.released q : Pc Tid Pid).Settled).elim
  | releasing rest => exact (hpc ▸ h : (Pc.releasing rest : Pc Tid Pid).Settled).elim
  | _ => rfl

theorem accounted_of_settled (h : (s.pc tid).Settled) (p : Pid) :
    s.Accounted tid p ↔ p ∈ s.lm.pagesHoldsByTrans tid := by
  unfold Accounted
  cases hpc : s.pc tid with
  | acquired q => exact (hpc ▸ h : (Pc.acquired q : Pc Tid Pid).Settled).elim
  | released q => exact (hpc ▸ h : (Pc.released q : Pc Tid Pid).Settled).elim
  | releasing rest => exact (hpc ▸ h : (Pc.releasing rest : Pc Tid Pid).Settled).elim
  | _ => rfl

/-- `notifyAll` moves a thread only from one point of the acquire to another. -/
theorem willRecord_notifyAll {x : Tid} {q : Pid} (hpc : s'.pc x = notifyAll s.pc q x)
    (hrec : s'.lm.pagesHoldsByTrans x = s.lm.pagesHoldsByTrans x) (p : Pid) :
    s'.WillRecord x p ↔ s.WillRecord x p := by
  unfold WillRecord
  rw [hpc, hrec]
  unfold notifyAll
  cases hq : s.pc x with
  | waiting q' perm deps =>
    dsimp only
    split_ifs <;> rfl
  | _ => rfl

theorem willRecord_of_ne {x : Tid} (hpc : s'.pc x = s.pc x)
    (hrec : s'.lm.pagesHoldsByTrans x = s.lm.pagesHoldsByTrans x) (p : Pid) :
    s'.WillRecord x p ↔ s.WillRecord x p := by
  unfold WillRecord
  rw [hpc, hrec]

/-! ### One step -/

/-- What is in the queue will be held when the lock is granted, and is held already. -/
theorem willRecord_enter (hx : ∀ p, s.lm.Exclusive p)
    (h : ∀ x p, s.WillRecord x p → s.lm.Holds x p) {pid : Pid} {perm : Permissions}
    {deps : List Tid} (he : s.Enters e tid pid perm deps) (x : Tid) (p : Pid)
    (hw : (s.enter closesCycle tid pid perm deps).WillRecord x p) :
    (s.enter closesCycle tid pid perm deps).lm.Holds x p := by
  have hf : Frame tid (fun _ => False) s (s.enter closesCycle tid pid perm deps) :=
    frame_enter hx pid perm deps
  by_cases hxt : x = tid
  · subst hxt
    have hsettled : (s.pc x).Settled := by
      cases he with
      | start hpc => rw [hpc]; trivial
      | again hpc => rw [hpc]; trivial
    have hold : p ∈ s.lm.pagesHoldsByTrans x →
        (s.enter closesCycle x pid perm deps).lm.Holds x p := fun hp =>
      hf.holds x p (fun _ hp => hp) (h x p ((willRecord_of_settled hsettled p).2 hp))
    cases hpc : (s.enter closesCycle x pid perm deps).pc x with
    | acquired q =>
      simp only [WillRecord, hpc, enter_pagesHoldsByTrans] at hw
      obtain hp | rfl := hw
      · exact hold hp
      · exact (enter_acquired hpc).2.1
    | released q =>
      simp only [WillRecord, hpc, enter_pagesHoldsByTrans] at hw
      exact hold (List.mem_of_mem_erase hw)
    | releasing rest => simp only [WillRecord, hpc] at hw
    | _ =>
      simp only [WillRecord, hpc, enter_pagesHoldsByTrans] at hw
      exact hold hw
  · rw [willRecord_of_ne (enter_pc_of_ne hxt pid perm deps) (by rw [enter_pagesHoldsByTrans])] at hw
    exact hf.holds x p (fun hxt' => absurd hxt' hxt) (h x p hw)

theorem willRecord_release (h : ∀ x p, s.WillRecord x p → s.lm.Holds x p)
    (hok : s.ReleasesOnce e) {pid : Pid} {next : Pc Tid Pid} (hr : s.Releases e tid pid next)
    (x : Tid) (p : Pid)
    (hw : (s.release tid pid next).WillRecord x p) : (s.release tid pid next).lm.Holds x p := by
  have hf : Frame tid (· = pid) s (s.release tid pid next) := frame_release next rfl
  by_cases hxt : x = tid
  · subst hxt
    cases hr with
    | one hi =>
      have hmem : p ∈ (s.lm.pagesHoldsByTrans x).erase pid := by
        simpa [WillRecord, release, LockManager.releaseLock] using hw
      have hpp : p ≠ pid := by
        rintro rfl
        have hpos := List.count_pos_iff.2 hmem
        rw [List.count_erase_self] at hpos
        have hle : (s.lm.pagesHoldsByTrans x).count p ≤ 1 := hok
        omega
      have hsettled : (s.pc x).Settled := by
        rw [hi]
        trivial
      have hrec := (willRecord_of_settled hsettled p).2 (List.mem_of_mem_erase hmem)
      exact hf.holds x p (fun _ => hpp) (h x p hrec)
    | next hi => simp [WillRecord, release] at hw
  · have hpc : (s.release tid pid next).pc x = notifyAll s.pc pid x := Function.update_of_ne hxt _ _
    exact hf.holds x p (fun hxt' => absurd hxt' hxt) (h x p ((willRecord_notifyAll hpc rfl p).1 hw))

theorem willRecord_step (hx : ∀ p, s.lm.Exclusive p)
    (h : ∀ x p, s.WillRecord x p → s.lm.Holds x p) (hok : s.ReleasesOnce e)
    (hs : s.step closesCycle e = some s') : ∀ x p, s'.WillRecord x p → s'.lm.Holds x p := by
  intro x p hw
  have hother : ∀ {t : LockSystem Tid Pid} {tid : Tid}, x ≠ tid → t.WillRecord x p →
      (∀ y, y ≠ tid → t.pc y = s.pc y) →
      (∀ y, y ≠ tid → t.lm.pagesHoldsByTrans y = s.lm.pagesHoldsByTrans y) → s.lm.Holds x p :=
    fun hne hw hpc hrec => h x p ((willRecord_of_ne (hpc x hne) (hrec x hne) p).1 hw)
  cases stepped hs with
  | enter he => exact willRecord_enter hx h he x p hw
  | release hr => exact willRecord_release h hok hr x p hw
  | @wake tid pid perm deps hpc =>
    by_cases hxt : x = tid
    · subst hxt
      exact h x p (by simpa [WillRecord, hpc] using hw)
    · exact hother hxt hw (fun _ hy => Function.update_of_ne hy _ _) fun _ _ => rfl
  | @record tid pid hpc =>
    by_cases hxt : x = tid
    · subst hxt
      exact h x p (by simpa [WillRecord, hpc, LockManager.record] using hw)
    · exact hother hxt hw (fun _ hy => Function.update_of_ne hy _ _)
        fun _ hy => Function.update_of_ne hy _ _
  | @unrecord tid pid hpc =>
    by_cases hxt : x = tid
    · subst hxt
      exact h x p (by simpa [WillRecord, hpc, LockManager.unrecord] using hw)
    · exact hother hxt hw (fun _ hy => Function.update_of_ne hy _ _)
        fun _ hy => Function.update_of_ne hy _ _
  | @begin tid hpc =>
    by_cases hxt : x = tid
    · subst hxt
      simp [WillRecord] at hw
    · exact hother hxt hw (fun _ hy => Function.update_of_ne hy _ _) fun _ _ => rfl
  | @finish tid hpc =>
    by_cases hxt : x = tid
    · subst hxt
      simp [WillRecord, LockManager.clearRecord] at hw
    · exact hother hxt hw (fun _ hy => Function.update_of_ne hy _ _)
        fun _ hy => Function.update_of_ne hy _ _

/-! ### A run -/

/-- What the queues and the locks say about each other in the runs that release pages only
once. -/
structure RecordInv (s : LockSystem Tid Pid) : Prop where
  exclusive : ∀ p, s.lm.Exclusive p
  accounted : ∀ x p, s.lm.Holds x p → s.Accounted x p
  held : ∀ x p, s.WillRecord x p → s.lm.Holds x p

theorem recordInv_init : (init : LockSystem Tid Pid).RecordInv where
  exclusive _ := .inr ⟨rfl, List.nodup_nil⟩
  accounted x p hh := by simp [init, LockManager.getLockManager, LockManager.Holds] at hh
  held x p hw := by simp [init, LockManager.getLockManager, WillRecord] at hw

theorem recordInv_step (h : s.RecordInv) (hok : s.ReleasesOnce e)
    (hs : s.step closesCycle e = some s') : s'.RecordInv where
  exclusive := exclusive_step h.exclusive hs
  accounted := accounted_step h.exclusive h.accounted hs
  held := willRecord_step h.exclusive h.held hok hs

theorem RecordInv.holdsLock_iff (h : s.RecordInv) (hpc : (s.pc tid).Settled) (pid : Pid) :
    s.lm.holdsLock tid pid = true ↔ s.lm.Holds tid pid := by
  have hmem : s.lm.holdsLock tid pid = true ↔ pid ∈ s.lm.pagesHoldsByTrans tid := by
    simp [LockManager.holdsLock]
  rw [hmem]
  constructor
  · intro hp
    exact h.held tid pid ((willRecord_of_settled hpc pid).2 hp)
  · intro hh
    exact (accounted_of_settled hpc pid).1 (h.accounted tid pid hh)

/-- After any other release of a page it is wrong. -/
theorem releasePage_twice (hx : ∀ p, s.lm.Exclusive p) (hi : s.pc tid = .idle) {pid : Pid}
    (htwice : ¬ s.ReleasesOnce (.releasePage tid pid)) :
    ∃ s₁ s₂, s.step closesCycle (.releasePage tid pid) = some s₁ ∧
      s₁.step closesCycle (.unrecord tid) = some s₂ ∧ s₂.pc tid = .idle ∧
      s₂.lm.holdsLock tid pid = true ∧ ¬ s₂.lm.Holds tid pid := by
  have hmem : pid ∈ (s.lm.pagesHoldsByTrans tid).erase pid := by
    have hlt : 1 < (s.lm.pagesHoldsByTrans tid).count pid := not_le.1 htwice
    rw [← List.count_pos_iff, List.count_erase_self]
    omega
  have hpc : (s.release tid pid (.released pid)).pc tid = .released pid := Function.update_self ..
  refine ⟨_, _, by rw [step, hi], by rw [step, hpc], Function.update_self .., ?_, ?_⟩
  · simpa [LockManager.holdsLock, LockManager.unrecord, release, LockManager.releaseLock] using hmem
  · exact LockManager.releaseLock_not_holds (hx pid) tid

/-- In a run that releases a page by itself only when it is in the queue once, `holdsLock` tells
the truth about every transaction that is not in the middle of a call. -/
theorem holdsLock_iff_holds (h : Reaches (step closesCycle) ReleasesOnce init s)
    (hpc : (s.pc tid).Settled) (pid : Pid) :
    s.lm.holdsLock tid pid = true ↔ s.lm.Holds tid pid :=
  (h.invariant recordInv_init fun _ _ _ hi hok hs => recordInv_step hi hok hs).holdsLock_iff hpc pid

/-- Two readers, of which the one that stays upgrades its lock. -/
theorem holdsLock_iff_holds_upgrade :
    ∃ s, Reaches (step LockManager.searchCycle) ReleasesOnce (init : LockSystem ℕ ℕ) s ∧
      (s.lm.holdsLock 1 0 = true ↔ s.lm.Holds 1 0) := by
  obtain ⟨s, hs⟩ : ∃ s, runWhile (step LockManager.searchCycle)
      (fun s e => decide (s.ReleasesOnce e)) (init : LockSystem ℕ ℕ)
      [.acquireLock 1 0 .readOnly, .record 1, .acquireLock 2 0 .readOnly, .record 2,
        .releasePage 1 0, .unrecord 1, .acquireLock 2 0 .readWrite, .record 2] = some s := ⟨_, rfl⟩
  have hr : Reaches (step LockManager.searchCycle) ReleasesOnce (init : LockSystem ℕ ℕ) s :=
    (reaches_runWhile _ .refl hs).mono fun _ _ he => of_decide_eq_true he
  have hpc : (s.pc 1).Settled := by
    cases hs
    trivial
  exact ⟨s, hr, holdsLock_iff_holds hr hpc 0⟩

/-- Released after two acquires, the page stays in the queue. -/
theorem holdsLock_acquired_twice :
    ∃ s, Reachable (step LockManager.searchCycle) (init : LockSystem ℕ ℕ) s ∧ s.pc 1 = .idle ∧
      s.lm.holdsLock 1 0 = true ∧ ¬ s.lm.Holds 1 0 := by
  obtain ⟨s, hs⟩ : ∃ s, runWhile (step LockManager.searchCycle) (fun _ _ => true)
      (init : LockSystem ℕ ℕ)
      [.acquireLock 1 0 .readOnly, .record 1, .acquireLock 1 0 .readOnly, .record 1,
        .releasePage 1 0, .unrecord 1] = some s := ⟨_, rfl⟩
  refine ⟨s, reachable_runWhile _ hs, ?_⟩
  cases hs
  decide

end LockSystem

end Courses.SimpleDb
