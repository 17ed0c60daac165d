import Courses.SimpleDb.BufferPool
import Courses.SimpleDb.DeadlockCoverage

/-!
# The locks behind the buffer pool

A step of the pool runs several steps of the lock manager for one thread.
`Frame` says what such a run leaves alone: the locks of all other threads, where
these threads stand, and of the thread's own locks all but those on given pages.
-/
set_option linter.unusedSectionVars false

namespace Courses.SimpleDb

open Courses.Lib

/-- The thread that takes the step. -/
def LockEvent.tid {Tid Pid : Type} : LockEvent Tid Pid → Tid
  | .acquireLock tid _ _ => tid
  | .wake tid => tid
  | .resume tid => tid
  | .record tid => tid
  | .releasePage tid _ => tid
  | .unrecord tid => tid
  | .releasePages tid => tid
  | .releaseNext tid => tid

namespace LockSystem

variable {Tid Pid : Type} [DecidableEq Tid] [DecidableEq Pid]
variable {closesCycle : List (Tid × Tid) → Tid → Tid → Bool}
variable {s s' s'' : LockSystem Tid Pid} {e : LockEvent Tid Pid} {tid : Tid} {gone : Pid → Prop}

structure Frame (tid : Tid) (gone : Pid → Prop) (s s' : LockSystem Tid Pid) : Prop where
  owner : ∀ x p, (x = tid → ¬ gone p) → s.lm.ownerTrans p = some x → s'.lm.ownerTrans p = some x
  holds : ∀ x p, (x = tid → ¬ gone p) → s.lm.Holds x p → s'.lm.Holds x p
  recorded : ∀ x, x ≠ tid → s'.lm.pagesHoldsByTrans x = s.lm.pagesHoldsByTrans x
  acquired : ∀ x p, x ≠ tid → s'.pc x = .acquired p → s.pc x = .acquired p
  pending : ∀ x p perm, x ≠ tid → Pending (s'.pc x) p perm → Pending (s.pc x) p perm

theorem Frame.trans (h : Frame tid gone s s') (h' : Frame tid gone s' s'') :
    Frame tid gone s s'' where
  owner x p hx ho := h'.owner x p hx (h.owner x p hx ho)
  holds x p hx hh := h'.holds x p hx (h.holds x p hx hh)
  recorded x hx := (h'.recorded x hx).trans (h.recorded x hx)
  acquired x p hx hp := h.acquired x p hx (h'.acquired x p hx hp)
  pending x p perm hx hp := h.pending x p perm hx (h'.pending x p perm hx hp)

theorem Frame.mono {gone' : Pid → Prop} (h : Frame tid gone s s') (hg : ∀ p, gone p → gone' p) :
    Frame tid gone' s s' :=
  { h with
    owner := fun x p hx => h.owner x p fun hxt hgone => hx hxt (hg p hgone)
    holds := fun x p hx => h.holds x p fun hxt hgone => hx hxt (hg p hgone) }

/-- A step that leaves the locks alone and moves only its own thread. -/
theorem frame_of_update {q : Pc Tid Pid} (ho : s'.lm.ownerTrans = s.lm.ownerTrans)
    (hsh : s'.lm.sharedTrans = s.lm.sharedTrans)
    (hrec : ∀ x, x ≠ tid → s'.lm.pagesHoldsByTrans x = s.lm.pagesHoldsByTrans x)
    (hpc : s'.pc = Function.update s.pc tid q) : Frame tid gone s s' where
  owner x p _ h := by rwa [ho]
  holds x p _ h := by simpa only [LockManager.Holds, ho, hsh] using h
  recorded := hrec
  acquired x p hx h := by rwa [hpc, Function.update_of_ne hx] at h
  pending x p perm hx h := by rwa [hpc, Function.update_of_ne hx] at h

theorem notifyAll_acquired {pc : Tid → Pc Tid Pid} {q p : Pid} {x : Tid}
    (h : notifyAll pc q x = .acquired p) : pc x = .acquired p := by
  unfold notifyAll at h
  split at h
  · split_ifs at h
  · exact h

theorem frame_release {pid : Pid} (next : Pc Tid Pid) (hgone : gone pid) :
    Frame tid gone s (s.release tid pid next) where
  owner x p hxp ho := by
    by_cases hxt : x = tid
    · subst hxt
      have hpp : p ≠ pid := fun h => hxp rfl (h ▸ hgone)
      simp only [release, LockManager.releaseLock]
      split_ifs
      · rwa [Function.update_of_ne hpp]
      · exact ho
    · exact (LockManager.releaseLock_owner_of_ne hxt pid p).mpr ho
  holds x p hxp hh := by
    by_cases hxt : x = tid
    · subst hxt
      have hpp : p ≠ pid := fun h => hxp rfl (h ▸ hgone)
      simp only [release, LockManager.Holds, LockManager.releaseLock, Function.update_of_ne hpp]
      refine hh.imp_left fun ho => ?_
      split_ifs
      · rwa [Function.update_of_ne hpp]
      · exact ho
    · exact (LockManager.releaseLock_holds_of_ne hxt pid p).mpr hh
  recorded x _ := rfl
  acquired x p hxt h := by
    simp only [release, Function.update_of_ne hxt] at h
    exact notifyAll_acquired h
  pending x p perm hxt h := by
    simp only [release, Function.update_of_ne hxt] at h
    exact (pending_notifyAll _ _ _ _ _).mp h

theorem frame_enter (hx : ∀ p, s.lm.Exclusive p) (pid : Pid) (perm : Permissions)
    (deps : List Tid) : Frame tid gone s (s.enter closesCycle tid pid perm deps) where
  owner x p _ ho := by
    rw [enter_lm]
    exact LockManager.tryAquire_owner_mono hx ho tid pid perm deps
  holds x p _ hh := by
    rw [enter_lm]
    exact LockManager.tryAquire_holds_mono hx hh tid pid perm deps
  recorded x _ := by rw [enter_pagesHoldsByTrans]
  acquired x p hxt h := by rwa [enter_pc_of_ne hxt] at h
  pending x p perm' hxt h := by rwa [enter_pc_of_ne hxt] at h

theorem frame_step (hx : ∀ p, s.lm.Exclusive p) (htid : e.tid = tid)
    (hgone : ∀ p next, s.Releases e tid p next → gone p)
    (hs : s.step closesCycle e = some s') : Frame tid gone s s' := by
  subst htid
  cases e with
  | acquireLock t pid perm =>
    simp only [step] at hs
    split at hs
    · cases hs
      exact frame_enter hx pid perm []
    · cases hs
  | wake t =>
    simp only [step] at hs
    split at hs
    · cases hs
      exact frame_of_update rfl rfl (fun _ _ => rfl) rfl
    · cases hs
  | resume t =>
    simp only [step] at hs
    split at hs
    · next pid perm deps _ =>
      cases hs
      exact frame_enter hx pid perm deps
    · cases hs
  | record t =>
    simp only [step] at hs
    split at hs
    · cases hs
      exact frame_of_update rfl rfl (fun _ h => Function.update_of_ne h _ _) rfl
    · cases hs
  | releasePage t pid =>
    simp only [step] at hs
    split at hs
    · next hi =>
      cases hs
      exact frame_release _ (hgone pid _ (.one hi))
    · cases hs
  | unrecord t =>
    simp only [step] at hs
    split at hs
    · cases hs
      exact frame_of_update rfl rfl (fun _ h => Function.update_of_ne h _ _) rfl
    · cases hs
  | releasePages t =>
    simp only [step] at hs
    split at hs
    · cases hs
      exact frame_of_update rfl rfl (fun _ _ => rfl) rfl
    · cases hs
  | releaseNext t =>
    simp only [step] at hs
    split at hs
    · next pid rest hi =>
      cases hs
      exact frame_release _ (hgone pid _ (.next hi))
    · cases hs
      exact frame_of_update rfl rfl (fun _ h => Function.update_of_ne h _ _) rfl
    · cases hs

/-- One step run as a list of one. -/
theorem runWhile_singleton (h : runWhile (step closesCycle) (fun _ _ => true) s [e] = some s') :
    s.step closesCycle e = some s' := by
  simpa [runWhile] using h

theorem runWhile_cons {es : List (LockEvent Tid Pid)}
    (h : runWhile (step closesCycle) (fun _ _ => true) s (e :: es) = some s') :
    ∃ t, s.step closesCycle e = some t ∧
      runWhile (step closesCycle) (fun _ _ => true) t es = some s' := by
  simpa [runWhile, Option.bind_eq_some_iff] using h

/-- A run of one thread that may give up any of its locks. -/
theorem frame_run (es : List (LockEvent Tid Pid)) (htid : ∀ e ∈ es, e.tid = tid)
    (hx : ∀ p, s.lm.Exclusive p)
    (h : runWhile (step closesCycle) (fun _ _ => true) s es = some s') :
    Frame tid (fun _ => True) s s' ∧ ∀ p, s'.lm.Exclusive p := by
  induction es generalizing s with
  | nil =>
    cases h
    exact ⟨⟨fun _ _ _ h => h, fun _ _ _ h => h, fun _ _ => rfl, fun _ _ _ h => h,
      fun _ _ _ _ h => h⟩, hx⟩
  | cons e es ih =>
    obtain ⟨t, hs, hrest⟩ := runWhile_cons h
    have hfirst : Frame tid (fun _ => True) s t :=
      frame_step hx (htid e List.mem_cons_self) (fun _ _ _ => trivial) hs
    obtain ⟨hnext, hx'⟩ := ih (fun e he => htid e (List.mem_cons_of_mem _ he))
      (exclusive_step hx hs) hrest
    exact ⟨hfirst.trans hnext, hx'⟩

/-! ## The thread itself -/

/-- A pass that gets the lock leaves its thread with it. -/
theorem enter_acquired {pid p : Pid} {perm : Permissions} {deps : List Tid}
    (h : (s.enter closesCycle tid pid perm deps).pc tid = .acquired p) :
    p = pid ∧ (s.enter closesCycle tid pid perm deps).lm.Holds tid p ∧
      (perm = .readWrite → (s.enter closesCycle tid pid perm deps).lm.ownerTrans p = some tid) := by
  have hlm : (s.enter closesCycle tid pid perm deps).lm =
      (s.lm.tryAquire closesCycle tid pid perm deps).2.1 := s.enter_lm tid pid perm deps
  have hg : (s.lm.tryAquire closesCycle tid pid perm deps).1 = .granted ∧ p = pid := by
    unfold enter at h
    rcases hr : s.lm.tryAquire closesCycle tid pid perm deps with ⟨o, lm, ds⟩
    rw [hr] at h
    cases o with
    | granted => exact ⟨rfl, by simpa using h.symm⟩
    | wait => simp at h
    | abort => simp at h
  obtain ⟨hg, rfl⟩ := hg
  obtain ⟨hh, hw⟩ := LockManager.tryAquire_granted hg
  rw [hlm]
  exact ⟨rfl, hh, hw⟩

theorem releaseNext_run (rest : List Pid) (hi : s.pc tid = .releasing rest)
    (h : runWhile (step closesCycle) (fun _ _ => true) s
      (List.replicate (rest.length + 1) (.releaseNext tid)) = some s') :
    s'.pc tid = .idle ∧ s'.lm.pagesHoldsByTrans tid = [] := by
  induction rest generalizing s with
  | nil =>
    have hs := runWhile_singleton h
    simp only [step, hi, Option.some.injEq] at hs
    subst hs
    exact ⟨Function.update_self .., Function.update_self ..⟩
  | cons pid rest ih =>
    rw [List.length_cons, List.replicate_succ] at h
    obtain ⟨t, hs, hrest⟩ := runWhile_cons h
    simp only [step, hi, Option.some.injEq] at hs
    subst hs
    exact ih (Function.update_self ..) hrest

/-- After `releasePages` a thread is outside the lock manager with no page on record. -/
theorem releasePages_run (h : runWhile (step closesCycle) (fun _ _ => true) s
      (.releasePages tid ::
        List.replicate ((s.lm.pagesHoldsByTrans tid).length + 1) (.releaseNext tid)) = some s') :
    s'.pc tid = .idle ∧ s'.lm.pagesHoldsByTrans tid = [] := by
  obtain ⟨t, hs, hrest⟩ := runWhile_cons h
  simp only [step] at hs
  split at hs
  · cases hs
    exact releaseNext_run _ (Function.update_self ..) hrest
  · cases hs

end LockSystem

namespace BufferPool

variable {Tid : Type} [DecidableEq Tid] {env : Env Tid} {s s' : BufferPool Tid} {tid : Tid}

/-- A run of the lock manager changes nothing else. -/
theorem locks_eq {es : List (LockEvent Tid HeapPageId)} (h : s.locks env es = some s') :
    ∃ sys, runWhile (LockSystem.step env.closesCycle) (fun _ _ => true) s.sys es = some sys ∧
      s' = { s with sys := sys } := by
  obtain ⟨sys, hsys, rfl⟩ := Option.map_eq_some_iff.mp h
  exact ⟨sys, hsys, rfl⟩

/-- `releasePage` gives up one page and takes one mention of it off the record. -/
theorem releasePage_frame (hx : ∀ p, s.sys.lm.Exclusive p) {pid : HeapPageId}
    (hs : s.releasePage env tid pid = some s') :
    ∃ sys, s' = { s with sys := sys } ∧ LockSystem.Frame tid (· = pid) s.sys sys ∧
      (∀ p, sys.lm.Exclusive p) ∧ sys.pc tid = .idle ∧
      sys.lm.pagesHoldsByTrans tid = (s.sys.lm.pagesHoldsByTrans tid).erase pid := by
  obtain ⟨sys, hrun, rfl⟩ := locks_eq hs
  obtain ⟨t, h1, hrest⟩ := LockSystem.runWhile_cons hrun
  have h2 := LockSystem.runWhile_singleton hrest
  have hx1 := LockSystem.exclusive_step hx h1
  have hf1 : LockSystem.Frame tid (· = pid) s.sys t := by
    refine LockSystem.frame_step hx rfl ?_ h1
    rintro p next ⟨⟩
    rfl
  have hf2 : LockSystem.Frame tid (· = pid) t sys :=
    LockSystem.frame_step hx1 rfl (by rintro _ _ ⟨⟩) h2
  refine ⟨sys, rfl, hf1.trans hf2, LockSystem.exclusive_step hx1 h2, ?_⟩
  simp only [LockSystem.step] at h1
  split at h1
  · cases h1
    simp only [LockSystem.step, LockSystem.release, Function.update_self, Option.some.injEq] at h2
    subst h2
    exact ⟨Function.update_self .., Function.update_self ..⟩
  · cases h1

/-- `releasePages` gives up everything. -/
theorem releasePages_frame (hx : ∀ p, s.sys.lm.Exclusive p)
    (hs : s.releasePages env tid = some s') :
    ∃ sys, s' = { s with sys := sys } ∧ LockSystem.Frame tid (fun _ => True) s.sys sys ∧
      (∀ p, sys.lm.Exclusive p) ∧ sys.pc tid = .idle ∧ sys.lm.pagesHoldsByTrans tid = [] := by
  obtain ⟨sys, hrun, rfl⟩ := locks_eq hs
  have htids : ∀ e : LockEvent Tid HeapPageId, e ∈ .releasePages tid :: List.replicate
      ((s.sys.lm.pagesHoldsByTrans tid).length + 1) (.releaseNext tid) → e.tid = tid := by
    intro e he
    rcases List.mem_cons.mp he with rfl | he
    · rfl
    · rw [List.eq_of_mem_replicate he]
      rfl
  obtain ⟨hf, hx'⟩ := LockSystem.frame_run _ htids hx hrun
  exact ⟨sys, rfl, hf, hx', LockSystem.releasePages_run hrun⟩

end BufferPool

end Courses.SimpleDb
