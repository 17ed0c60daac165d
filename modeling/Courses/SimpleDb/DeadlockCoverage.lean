import Courses.SimpleDb.Deadlock

/-!
# Completeness of the deadlock detection

The dependency graph is acyclic in every state. It finds every deadlock exactly
when it covers the wait-for relation of the blocked transactions. Two kinds of
step break the cover: a read lock granted past a writer that is already waiting,
for whom nobody enters the new reader, and a request by a transaction whose last
request was aborted, since the abort took the edges of those who wait for it out
of the graph. In runs without such steps no set of transactions is deadlocked.
-/
set_option linter.unusedSectionVars false

namespace Courses.SimpleDb

open Relation Courses.Lib

namespace LockSystem

variable {Tid Pid : Type} [DecidableEq Tid] [DecidableEq Pid]
variable {closesCycle : List (Tid × Tid) → Tid → Tid → Bool}
variable {s s' : LockSystem Tid Pid} {e : LockEvent Tid Pid}

/-- Every member of the set is blocked in `lock.wait()` for a page that another
member holds. -/
def Deadlocked (s : LockSystem Tid Pid) (S : Set Tid) : Prop :=
  S.Nonempty ∧ ∀ x ∈ S, ∃ pid perm deps, s.pc x = .waiting pid perm deps ∧
    ∃ y ∈ S, y ≠ x ∧ s.lm.Holds y pid

/-- The thread is blocked in a request for a write lock on the page. -/
def writerWaits : Pc Tid Pid → Pid → Bool
  | .waiting p .readWrite _, pid => p == pid
  | _, _ => false

/-- Serving the request adds no reader to a page that a writer is blocked on. -/
def AdmitsReader (s : LockSystem Tid Pid) (tid : Tid) (pid : Pid) (perm : Permissions) : Prop :=
  perm = .readOnly → s.lm.ownerTrans pid = none → tid ∉ s.lm.sharedTrans pid →
    ∀ x, writerWaits (s.pc x) pid = false

/-- No reader is admitted past a blocked writer, and an aborted transaction makes
no request before its `releasePages` is done. -/
def Admits (s : LockSystem Tid Pid) : LockEvent Tid Pid → Prop
  | .acquireLock tid pid perm => s.aborted tid = false ∧ s.AdmitsReader tid pid perm
  | .resume tid =>
    match s.pc tid with
    | .notified pid perm _ => s.AdmitsReader tid pid perm
    | _ => True
  | _ => True

instance [Fintype Tid] (s : LockSystem Tid Pid) (tid : Tid) (pid : Pid) (perm : Permissions) :
    Decidable (s.AdmitsReader tid pid perm) :=
  inferInstanceAs (Decidable (_ → _ → _ → ∀ x, writerWaits (s.pc x) pid = false))

instance [Fintype Tid] (s : LockSystem Tid Pid) (e : LockEvent Tid Pid) :
    Decidable (s.Admits e) :=
  match e with
  | .acquireLock tid pid perm =>
    inferInstanceAs (Decidable (s.aborted tid = false ∧ s.AdmitsReader tid pid perm))
  | .resume tid =>
    match hpc : s.pc tid with
    | .notified pid perm _ =>
      decidable_of_iff (s.AdmitsReader tid pid perm) (by simp [Admits, hpc])
    | .idle | .waiting .. | .acquired _ | .released _ | .releasing _ =>
      .isTrue (by simp [Admits, hpc])
  | .wake _ | .record _ | .releasePage .. | .unrecord _ | .releasePages _ | .releaseNext _ =>
    .isTrue trivial

theorem Admits.reader {tid : Tid} {pid : Pid} {perm : Permissions} {deps : List Tid}
    (h : s.Admits e) (he : s.Enters e tid pid perm deps) : s.AdmitsReader tid pid perm := by
  cases he with
  | start _ => exact h.2
  | again hn => simpa [Admits, hn] using h

/-! ## Every lock is accounted for -/

/-- The pages a transaction holds are among those its thread will still release. -/
def Accounted (s : LockSystem Tid Pid) (tid : Tid) (p : Pid) : Prop :=
  match s.pc tid with
  | .acquired q => p ∈ s.lm.pagesHoldsByTrans tid ∨ p = q
  | .released q => p ∈ s.lm.pagesHoldsByTrans tid ∧ p ≠ q
  | .releasing rest => p ∈ rest
  | _ => p ∈ s.lm.pagesHoldsByTrans tid

theorem enter_pagesHoldsByTrans (tid : Tid) (pid : Pid) (perm : Permissions) (deps : List Tid) :
    (s.enter closesCycle tid pid perm deps).lm.pagesHoldsByTrans = s.lm.pagesHoldsByTrans := by
  rw [enter_lm]
  have hp := s.lm.passed closesCycle tid pid perm deps
  generalize s.lm.tryAquire closesCycle tid pid perm deps = r at hp
  cases hp with
  | already _ _ => rfl
  | own _ _ => rfl
  | upgrade _ _ => rfl
  | share _ _ => rfl
  | behindOwner holder _ _ _ => exact (s.lm.waitFor_locks closesCycle tid [holder]).2.2
  | behindReaders _ _ _ => exact (s.lm.waitFor_locks closesCycle tid _).2.2

/-- A thread outside `releasePage` and `releasePages` owes the pages on record. -/
theorem Enters.accounted {tid : Tid} {pid : Pid} {perm : Permissions} {deps : List Tid}
    (he : s.Enters e tid pid perm deps) (p : Pid) :
    s.Accounted tid p ↔ p ∈ s.lm.pagesHoldsByTrans tid := by
  unfold Accounted
  cases he with
  | start h => rw [h]
  | again h => rw [h]

theorem accounted_of_ne {t : LockSystem Tid Pid} {x : Tid} (hpc : t.pc x = s.pc x)
    (hrec : t.lm.pagesHoldsByTrans x = s.lm.pagesHoldsByTrans x) (p : Pid) :
    t.Accounted x p ↔ s.Accounted x p := by
  unfold Accounted
  rw [hpc, hrec]

theorem accounted_notifyAll {t : LockSystem Tid Pid} {x : Tid} {q : Pid}
    (hpc : t.pc x = notifyAll s.pc q x)
    (hrec : t.lm.pagesHoldsByTrans x = s.lm.pagesHoldsByTrans x) (p : Pid) :
    t.Accounted x p ↔ s.Accounted x p := by
  unfold Accounted
  rw [hpc, hrec]
  unfold notifyAll
  cases hq : s.pc x with
  | waiting q' perm deps =>
    dsimp only
    split_ifs <;> rfl
  | _ => rfl

theorem accounted_enter (h : ∀ x p, s.lm.Holds x p → s.Accounted x p) {tid : Tid} {pid : Pid}
    {perm : Permissions} {deps : List Tid} (he : s.Enters e tid pid perm deps) (x : Tid) (p : Pid)
    (hh : (s.enter closesCycle tid pid perm deps).lm.Holds x p) :
    (s.enter closesCycle tid pid perm deps).Accounted x p := by
  by_cases hx : x = tid
  · subst hx
    rw [enter_lm] at hh
    have hrec : (s.enter closesCycle x pid perm deps).lm.pagesHoldsByTrans x =
        s.lm.pagesHoldsByTrans x := by rw [enter_pagesHoldsByTrans]
    have hold := (he.accounted p).mp ∘ h x p
    unfold Accounted
    rw [hrec]
    rcases hr : s.lm.tryAquire closesCycle x pid perm deps with ⟨o, lm, ds⟩
    cases o with
    | granted =>
      simp only [enter, hr, Function.update_self]
      rcases LockManager.tryAquire_holds_new hh with hh | ⟨_, hp, _⟩
      · exact .inl (hold hh)
      · exact .inr hp
    | wait =>
      simp only [enter, hr, Function.update_self]
      rcases LockManager.tryAquire_holds_new hh with hh | ⟨_, _, hg⟩
      · exact hold hh
      · simp [hr] at hg
    | abort =>
      simp only [enter, hr, Function.update_self]
      rcases LockManager.tryAquire_holds_new hh with hh | ⟨_, _, hg⟩
      · exact hold hh
      · simp [hr] at hg
  · rw [accounted_of_ne (enter_pc_of_ne hx pid perm deps) (by rw [enter_pagesHoldsByTrans])]
    refine h x p ?_
    rw [enter_lm] at hh
    exact (LockManager.tryAquire_holds_new hh).resolve_right fun h => hx h.1

theorem accounted_release (hx : ∀ p, s.lm.Exclusive p)
    (h : ∀ x p, s.lm.Holds x p → s.Accounted x p) {tid : Tid} {pid : Pid} {next : Pc Tid Pid}
    (hr : s.Releases e tid pid next) (x : Tid) (p : Pid)
    (hh : (s.release tid pid next).lm.Holds x p) : (s.release tid pid next).Accounted x p := by
  have hold := h x p (LockManager.releaseLock_holds_mono hh)
  by_cases hxt : x = tid
  · subst hxt
    have hpp : p ≠ pid := by
      rintro rfl
      exact LockManager.releaseLock_not_holds (hx p) x hh
    cases hr with
    | one hi =>
      have hmem : p ∈ s.lm.pagesHoldsByTrans x := by simpa [Accounted, hi] using hold
      simpa [Accounted, release, LockManager.releaseLock] using ⟨hmem, hpp⟩
    | @next _ _ rest hi =>
      have hmem : p = pid ∨ p ∈ rest := by simpa [Accounted, hi] using hold
      simpa [Accounted, release] using hmem.resolve_left hpp
  · have hpc : (s.release tid pid next).pc x = notifyAll s.pc pid x := Function.update_of_ne hxt _ _
    exact (accounted_notifyAll hpc rfl p).mpr hold

theorem accounted_step (hx : ∀ p, s.lm.Exclusive p)
    (h : ∀ x p, s.lm.Holds x p → s.Accounted x p) (hs : s.step closesCycle e = some s') :
    ∀ x p, s'.lm.Holds x p → s'.Accounted x p := by
  intro x p hh
  have hother : ∀ {t : LockSystem Tid Pid} {tid : Tid}, x ≠ tid → s.lm.Holds x p →
      (∀ y, y ≠ tid → t.pc y = s.pc y) →
      (∀ y, y ≠ tid → t.lm.pagesHoldsByTrans y = s.lm.pagesHoldsByTrans y) → t.Accounted x p :=
    fun hne hh hpc hrec => (accounted_of_ne (hpc x hne) (hrec x hne) p).mpr (h x p hh)
  cases stepped hs with
  | enter he => exact accounted_enter h he x p hh
  | release hr => exact accounted_release hx h hr x p hh
  | @wake tid pid perm deps hw =>
    by_cases hxt : x = tid
    · subst hxt
      have hold := h x p hh
      simpa [Accounted, hw] using hold
    · exact hother hxt hh (fun _ hy => Function.update_of_ne hy _ _) fun _ _ => rfl
  | @record tid pid hw =>
    by_cases hxt : x = tid
    · subst hxt
      have hold := h x p hh
      simpa [Accounted, hw, LockManager.record] using hold
    · exact hother hxt hh (fun _ hy => Function.update_of_ne hy _ _)
        fun _ hy => Function.update_of_ne hy _ _
  | @unrecord tid pid hw =>
    by_cases hxt : x = tid
    · subst hxt
      have hold := h x p hh
      have hmem : p ∈ s.lm.pagesHoldsByTrans x ∧ p ≠ pid := by simpa [Accounted, hw] using hold
      simpa [Accounted, LockManager.unrecord] using (List.mem_erase_of_ne hmem.2).mpr hmem.1
    · exact hother hxt hh (fun _ hy => Function.update_of_ne hy _ _)
        fun _ hy => Function.update_of_ne hy _ _
  | @begin tid hw =>
    by_cases hxt : x = tid
    · subst hxt
      have hold := h x p hh
      simpa [Accounted, hw] using hold
    · exact hother hxt hh (fun _ hy => Function.update_of_ne hy _ _) fun _ _ => rfl
  | @finish tid hw =>
    by_cases hxt : x = tid
    · subst hxt
      have hold := h x p hh
      simp [Accounted, hw] at hold
    · exact hother hxt hh (fun _ hy => Function.update_of_ne hy _ _)
        fun _ hy => Function.update_of_ne hy _ _

/-! ## The edges cover the waits -/

/-- A blocked request conflicts with a holder of its page, and has an edge to every
other holder that is not on its way out after an abort. -/
def Covered (s : LockSystem Tid Pid) (x : Tid) (p : Pid) (perm : Permissions) : Prop :=
  (∃ y, s.lm.Conflicts perm p x y) ∧
    ∀ y, s.lm.Holds y p → y ≠ x → s.aborted y = false → (x, y) ∈ s.lm.dependency

/-- The invariant of the admissible runs. -/
structure CoverInv (s : LockSystem Tid Pid) : Prop where
  exclusive : ∀ p, s.lm.Exclusive p
  acyclic : Acyclic s.lm.dependency
  accounted : ∀ x p, s.lm.Holds x p → s.Accounted x p
  quiet : ∀ x p perm, Pending (s.pc x) p perm → s.aborted x = false
  covered : ∀ x p perm deps, s.pc x = .waiting p perm deps → s.Covered x p perm

theorem enter_aborted (tid : Tid) (pid : Pid) (perm : Permissions) (deps : List Tid) :
    (s.enter closesCycle tid pid perm deps).aborted =
      if (s.lm.tryAquire closesCycle tid pid perm deps).1 = .abort
      then Function.update s.aborted tid true else s.aborted := by
  unfold enter
  split <;> simp_all

/-- Who counts as not aborted after a pass did before it, and was not aborted by it. -/
theorem not_aborted_of_enter {y tid : Tid} {pid : Pid} {perm : Permissions} {deps : List Tid}
    (h : (s.enter closesCycle tid pid perm deps).aborted y = false) : s.aborted y = false ∧
      ((s.lm.tryAquire closesCycle tid pid perm deps).1 = .abort → y ≠ tid) := by
  rw [enter_aborted] at h
  by_cases hy : y = tid
  · subst hy
    split_ifs at h with ha
    · simp at h
    · exact ⟨h, fun ha' => absurd ha' ha⟩
  · refine ⟨?_, fun _ => hy⟩
    split_ifs at h
    · simpa [Function.update_of_ne hy] using h
    · exact h

/-- A thread is left inside the acquire only by a pass that waits. -/
theorem enter_pending {tid : Tid} {pid p : Pid} {perm perm' : Permissions} {deps : List Tid}
    (h : Pending ((s.enter closesCycle tid pid perm deps).pc tid) p perm') :
    p = pid ∧ perm' = perm ∧ (s.lm.tryAquire closesCycle tid pid perm deps).1 = .wait := by
  unfold enter at h
  rcases hr : s.lm.tryAquire closesCycle tid pid perm deps with ⟨o, lm, ds⟩
  rw [hr] at h
  cases o with
  | granted =>
    simp only [Function.update_self] at h
    cases h
  | wait =>
    simp only [Function.update_self] at h
    cases h
    exact ⟨rfl, rfl, rfl⟩
  | abort =>
    simp only [Function.update_self] at h
    cases h

theorem quiet_step (h : ∀ x p perm, Pending (s.pc x) p perm → s.aborted x = false)
    (ha : s.Admits e) (hs : s.step closesCycle e = some s') (x : Tid) (p : Pid)
    (perm : Permissions) (hp : Pending (s'.pc x) p perm) : s'.aborted x = false := by
  have hbefore := pending_step hs hp
  cases stepped hs with
  | @enter tid pid perm' deps he =>
    by_cases hxt : x = tid
    · subst hxt
      rw [enter_aborted, if_neg (by simp [(enter_pending hp).2.2])]
      cases he with
      | start _ => exact ha.1
      | again hn => exact h x pid perm' (hn ▸ .notified _ _ _)
    · rw [enter_pc_of_ne hxt] at hp
      have hold := h x p perm hp
      rw [enter_aborted]
      split_ifs
      · rwa [Function.update_of_ne hxt]
      · exact hold
  | release hr =>
    rcases hbefore with hb | ⟨_, he⟩
    · exact h x p perm hb
    · cases hr <;> cases he
  | @wake tid pid perm' deps hw =>
    refine h x p perm ((pending_update (fun q perm'' => ?_) x p perm).mp hp)
    rw [hw]
    constructor
    · rintro ⟨⟩
      exact .waiting _ _ _
    · rintro ⟨⟩
      exact .notified _ _ _
  | record hw =>
    refine h x p perm ((pending_update (fun q perm'' => ?_) x p perm).mp hp)
    rw [hw]
    exact ⟨nofun, nofun⟩
  | unrecord hw =>
    refine h x p perm ((pending_update (fun q perm'' => ?_) x p perm).mp hp)
    rw [hw]
    exact ⟨nofun, nofun⟩
  | begin hw =>
    refine h x p perm ((pending_update (fun q perm'' => ?_) x p perm).mp hp)
    rw [hw]
    exact ⟨nofun, nofun⟩
  | @finish tid hw =>
    by_cases hxt : x = tid
    · simp [hxt]
    · simp only [Function.update_of_ne hxt] at hp ⊢
      exact h x p perm hp

/-- The waits of the other threads survive a pass of `tid`. -/
theorem covered_enter_of_ne (hi : s.CoverInv) {tid : Tid} {pid : Pid} {perm : Permissions}
    {deps : List Tid} (hadm : s.AdmitsReader tid pid perm) {x : Tid} (hne : x ≠ tid) {p : Pid}
    {perm' : Permissions} {deps' : List Tid} (hw : s.pc x = .waiting p perm' deps') :
    (s.enter closesCycle tid pid perm deps).Covered x p perm' := by
  obtain ⟨⟨d, hd⟩, hcov⟩ := hi.covered x p perm' deps' hw
  refine ⟨⟨d, ?_⟩, ?_⟩
  · rw [enter_lm]
    exact hd.tryAquire hi.exclusive tid pid perm deps
  intro y hy hyx hya
  rw [enter_lm] at hy ⊢
  have hold : s.lm.Holds y p := by
    by_contra hnew
    obtain ⟨rfl, rfl, hg⟩ := (LockManager.tryAquire_holds_new hy).resolve_left hnew
    -- The page was free for tid, but not for x: tid is a new reader and x a writer.
    obtain ⟨hnone, hfree⟩ := LockManager.tryAquire_admitted hg hnew
    cases perm' with
    | readOnly => exact absurd hd.2 (by simp [hnone])
    | readWrite =>
      have hmem : d ∈ s.lm.sharedTrans p := by simpa [LockManager.Holds, hnone] using hd.2
      rcases hfree with hnil | hro
      · simp [hnil] at hmem
      · have hwait := hadm hro hnone (fun h => hnew (.inr h)) x
        simp [writerWaits, hw] at hwait
  obtain ⟨hya, hyt⟩ := not_aborted_of_enter hya
  have hedge := hcov y hold hyx hya
  by_cases hg : (s.lm.tryAquire closesCycle tid pid perm deps).1 = .granted
  · exact (LockManager.tryAquire_granted_dependency hg).2 hne hedge
  · obtain ⟨ds, heq, _, _⟩ := LockManager.tryAquire_blocked hi.exclusive hg
    have hloop : (x, y) ∈ (LockManager.addDepsLoop closesCycle tid s.lm.dependency ds).1 :=
      LockManager.subset_addDepsLoop tid ds s.lm.dependency hedge
    rw [heq] at hyt ⊢
    cases ho : (s.lm.waitFor closesCycle tid ds).1 with
    | granted => exact absurd ho (LockManager.waitFor_not_granted closesCycle s.lm tid ds)
    | wait =>
      rw [(LockManager.waitFor_wait ho).2]
      exact hloop
    | abort =>
      rw [(LockManager.waitFor_abort ho).2, LockManager.mem_removeVertex]
      exact ⟨hloop, hne, hyt ho⟩

/-- A pass that waits has entered all it waits for. -/
theorem covered_enter_self (hx : ∀ p, s.lm.Exclusive p) {tid : Tid} {pid : Pid}
    {perm : Permissions} {deps : List Tid}
    (hw : (s.lm.tryAquire closesCycle tid pid perm deps).1 = .wait) :
    (s.enter closesCycle tid pid perm deps).Covered tid pid perm := by
  have hg : (s.lm.tryAquire closesCycle tid pid perm deps).1 ≠ .granted := by simp [hw]
  obtain ⟨ds, heq, hds, d, hd⟩ := LockManager.tryAquire_blocked hx hg
  refine ⟨⟨d, ?_⟩, ?_⟩
  · rw [enter_lm]
    exact hd.tryAquire hx tid pid perm deps
  intro y hy hne _
  rw [enter_lm] at hy ⊢
  have hold : s.lm.Holds y pid := by
    rcases LockManager.tryAquire_holds_new hy with hy | ⟨_, _, hgr⟩
    · exact hy
    · exact absurd hgr hg
  have hc : s.lm.Conflicts perm pid tid y := by
    refine ⟨hne, ?_⟩
    cases perm with
    | readWrite => exact hold
    | readOnly =>
      have hyd : d = y := by
        by_contra hne'
        exact (hx pid).not_holds hd.2 hne' hold
      exact hyd ▸ hd.2
  rw [heq] at hw ⊢
  rw [(LockManager.waitFor_wait hw).2]
  exact LockManager.addDepsLoop_complete ds (LockManager.waitFor_wait hw).1
    ((hds y).mpr hc).1 hne

theorem covered_release (hi : s.CoverInv) {tid : Tid} {pid : Pid} {next : Pc Tid Pid}
    (hr : s.Releases e tid pid next) {x : Tid} {p : Pid} {perm : Permissions} {deps : List Tid}
    (hw : (s.release tid pid next).pc x = .waiting p perm deps) :
    (s.release tid pid next).Covered x p perm := by
  have hne : x ≠ tid := by
    rintro rfl
    have hnext : next = .waiting p perm deps := by simpa [release] using hw
    exact (hr.not_pending p perm).2 (hnext ▸ .waiting _ _ _)
  -- Who is still in wait() waits for another page, since all waiters of this one are notified.
  obtain ⟨hold, hpp⟩ : s.pc x = .waiting p perm deps ∧ p ≠ pid := by
    simp only [release, Function.update_of_ne hne, notifyAll] at hw
    split at hw
    · next q perm' deps' hq =>
      split_ifs at hw with hqp
      cases hw
      exact ⟨hq, hqp⟩
    · next hq => exact absurd hw (hq p perm deps)
  obtain ⟨⟨d, hd⟩, hcov⟩ := hi.covered x p perm deps hold
  refine ⟨⟨d, (LockManager.releaseLock_conflicts_of_page hpp perm x d).mpr hd⟩, ?_⟩
  intro y hy
  exact hcov y (LockManager.releaseLock_holds_mono hy)

theorem covered_step (hi : s.CoverInv) (ha : s.Admits e) (hs : s.step closesCycle e = some s')
    (x : Tid) (p : Pid) (perm : Permissions) (deps : List Tid)
    (hw : s'.pc x = .waiting p perm deps) : s'.Covered x p perm := by
  have hback : ∀ {tid : Tid} {q : Pc Tid Pid}, q ≠ .waiting p perm deps →
      Function.update s.pc tid q x = .waiting p perm deps → s.pc x = .waiting p perm deps := by
    intro tid q hq h
    by_cases hxt : x = tid
    · subst hxt
      rw [Function.update_self] at h
      exact absurd h hq
    · rwa [Function.update_of_ne hxt] at h
  cases stepped hs with
  | @enter tid pid perm' deps' he =>
    by_cases hxt : x = tid
    · subst hxt
      obtain ⟨rfl, rfl, hwait⟩ := enter_pending (hw ▸ Pending.waiting p perm deps)
      exact covered_enter_self hi.exclusive hwait
    · rw [enter_pc_of_ne hxt] at hw
      exact covered_enter_of_ne hi (ha.reader he) hxt hw
  | release hr => exact covered_release hi hr hw
  | wake _ => exact hi.covered x p perm deps (hback (by simp) hw)
  | record _ => exact hi.covered x p perm deps (hback (by simp) hw)
  | unrecord _ => exact hi.covered x p perm deps (hback (by simp) hw)
  | begin _ => exact hi.covered x p perm deps (hback (by simp) hw)
  | @finish tid hf =>
    obtain ⟨hc, hcov⟩ := hi.covered x p perm deps (hback (by simp) hw)
    refine ⟨hc, fun y hy hyx hya => ?_⟩
    have hyt : y ≠ tid := by
      rintro rfl
      have hacc := hi.accounted y p hy
      simp [Accounted, hf] at hacc
    simp only [Function.update_of_ne hyt] at hya
    exact hcov y hy hyx hya

theorem acyclic_step (hc : LockManager.DagEdgeSpec closesCycle) (hx : ∀ p, s.lm.Exclusive p)
    (h : Acyclic s.lm.dependency) (hs : s.step closesCycle e = some s') :
    Acyclic s'.lm.dependency := by
  cases stepped hs with
  | enter _ =>
    rw [enter_lm]
    exact LockManager.tryAquire_acyclic hc hx h _ _ _ _
  | _ => exact h

theorem coverInv_reaches (hc : LockManager.DagEdgeSpec closesCycle)
    (h : Reaches (step closesCycle) Admits init s) : s.CoverInv := by
  refine h.invariant ?_ ?_
  · exact {
      exclusive := fun _ => .inr ⟨rfl, List.nodup_nil⟩
      acyclic := acyclic_nil
      accounted := by rintro _ _ (h | h) <;> cases h
      quiet := fun _ _ _ _ => rfl
      covered := by rintro _ _ _ _ ⟨⟩ }
  · intro s e s' hi ha hs
    exact {
      exclusive := exclusive_step hi.exclusive hs
      acyclic := acyclic_step hc hi.exclusive hi.acyclic hs
      accounted := accounted_step hi.exclusive hi.accounted hs
      quiet := quiet_step hi.quiet ha hs
      covered := covered_step hi ha hs }

/-- In a run without a reader admitted past a blocked writer and without a request
between an abort and the end of its `releasePages`, no set of transactions is
deadlocked. -/
theorem deadlock_detection_complete (hc : LockManager.DagEdgeSpec closesCycle)
    {s : LockSystem Tid Pid} (h : Reaches (step closesCycle) Admits init s) (S : Set Tid) :
    ¬ s.Deadlocked S := by
  rintro ⟨hne, hS⟩
  have hi := coverInv_reaches hc h
  refine hi.acyclic.not_closed hne fun x hx => ?_
  obtain ⟨pid, perm, deps, hw, y, hy, hyx, hh⟩ := hS x hx
  obtain ⟨pid', perm', deps', hwy, _⟩ := hS y hy
  have hya : s.aborted y = false := hi.quiet y pid' perm' (hwy ▸ .waiting _ _ _)
  exact ⟨y, hy, (hi.covered x pid perm deps hw).2 y hh hyx hya⟩

/-- Three transactions in a row, each blocked by the next. -/
theorem deadlock_detection_complete_chain :
    ∃ s : LockSystem (Fin 3) ℕ, Reaches (step LockManager.searchCycle) Admits init s ∧
      (∃ deps, s.pc 0 = .waiting 1 .readWrite deps) ∧
      (∃ deps, s.pc 1 = .waiting 2 .readOnly deps) ∧ ∀ S, ¬ s.Deadlocked S := by
  obtain ⟨s, hs⟩ : ∃ s, runWhile (step LockManager.searchCycle)
      (fun s e => decide (Admits s e)) (init : LockSystem (Fin 3) ℕ)
      [.acquireLock 1 1 .readOnly, .record 1, .acquireLock 2 2 .readWrite, .record 2,
        .acquireLock 0 1 .readWrite, .acquireLock 1 2 .readOnly] = some s := ⟨_, rfl⟩
  have hr := (reaches_runWhile _ .refl hs).mono fun _ _ h => of_decide_eq_true h
  refine ⟨s, hr, ?_, ?_, deadlock_detection_complete LockManager.dagEdgeSpec_searchCycle hr⟩ <;>
    cases hs <;> exact ⟨_, rfl⟩

/-- Transaction 1 owns page 0 and is blocked for page 1, which 2 reads. Then 3 is
let in as a second reader of page 1, and when it asks for page 0 it is not
aborted but blocked: 1 and 3 wait for each other. -/
theorem deadlock_detection_incomplete :
    ∃ s : LockSystem ℕ ℕ, Reachable (step LockManager.searchCycle) init s ∧
      s.Deadlocked {1, 3} := by
  obtain ⟨s, hs⟩ : ∃ s, runWhile (step LockManager.searchCycle) (fun _ _ => true)
      (init : LockSystem ℕ ℕ)
      [.acquireLock 1 0 .readWrite, .record 1, .acquireLock 2 1 .readOnly, .record 2,
        .acquireLock 1 1 .readWrite, .acquireLock 3 1 .readOnly, .record 3,
        .acquireLock 3 0 .readOnly] = some s := ⟨_, rfl⟩
  have hr := reachable_runWhile _ hs
  refine ⟨s, hr, ⟨1, by simp⟩, ?_⟩
  cases hs
  rintro x (rfl | rfl)
  · exact ⟨1, .readWrite, _, rfl, 3, by simp, by decide, by decide⟩
  · exact ⟨0, .readOnly, _, rfl, 1, by simp, by decide, by decide⟩

end LockSystem

end Courses.SimpleDb
