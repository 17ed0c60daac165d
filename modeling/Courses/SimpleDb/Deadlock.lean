import Courses.SimpleDb.LockEffects

/-!
# Deadlock detection

A transaction that has to wait enters one edge for every holder it finds into the
dependency graph, and is aborted if one of them would close a cycle. The graph is
only brought up to date by the waiting transaction itself: nothing happens to it
when another transaction joins the holders of the page, and an edge entered in an
earlier round of the loop is forgotten, not removed.

So neither direction of the detection holds of every run. Soundness holds when
no transaction asks for a lock after giving one up, completeness when no reader
is admitted past a waiting writer and an aborted transaction releases its pages
before it asks again.
-/
set_option linter.unusedSectionVars false

namespace Courses.SimpleDb

open Relation Courses.Lib

namespace LockSystem

variable {Tid Pid : Type} [DecidableEq Tid] [DecidableEq Pid]
variable {closesCycle : List (Tid × Tid) → Tid → Tid → Bool}
variable {s s' : LockSystem Tid Pid} {e : LockEvent Tid Pid}

/-- The thread is inside an acquire that has waited at least once. -/
inductive Pending : Pc Tid Pid → Pid → Permissions → Prop
  | waiting (pid : Pid) (perm : Permissions) (deps : List Tid) :
      Pending (.waiting pid perm deps) pid perm
  | notified (pid : Pid) (perm : Permissions) (deps : List Tid) :
      Pending (.notified pid perm deps) pid perm

/-- `x` waits for a page that `y` now holds in a conflicting mode. -/
def Waits (s : LockSystem Tid Pid) (x y : Tid) : Prop :=
  ∃ pid perm, Pending (s.pc x) pid perm ∧ s.lm.Conflicts perm pid x y

/-- The wait-for relation at the moment `tid` finds that it has to wait for `pid`. -/
def WaitsWith (s : LockSystem Tid Pid) (tid : Tid) (pid : Pid) (perm : Permissions)
    (x y : Tid) : Prop :=
  s.Waits x y ∨ x = tid ∧ s.lm.Conflicts perm pid tid y

/-! ## Threads that a step leaves alone -/

theorem enter_pc_of_ne {x tid : Tid} (hne : x ≠ tid) (pid : Pid) (perm : Permissions)
    (deps : List Tid) : (s.enter closesCycle tid pid perm deps).pc x = s.pc x := by
  unfold enter
  split <;> simp [Function.update_of_ne hne]

theorem Enters.not_pending_or {tid : Tid} {pid : Pid} {perm : Permissions} {deps : List Tid}
    (h : s.Enters e tid pid perm deps) {p : Pid} {perm' : Permissions}
    (hp : Pending (s.pc tid) p perm') : p = pid ∧ perm' = perm := by
  cases h with
  | start hi =>
    rw [hi] at hp
    cases hp
  | again hn =>
    rw [hn] at hp
    cases hp
    exact ⟨rfl, rfl⟩

theorem Releases.not_pending {tid : Tid} {pid : Pid} {next : Pc Tid Pid}
    (h : s.Releases e tid pid next) (p : Pid) (perm : Permissions) :
    ¬ Pending (s.pc tid) p perm ∧ ¬ Pending next p perm := by
  cases h with
  | one hi => rw [hi]; exact ⟨nofun, nofun⟩
  | next hi => rw [hi]; exact ⟨nofun, nofun⟩

theorem pending_notifyAll (pc : Tid → Pc Tid Pid) (q : Pid) (x : Tid) (p : Pid)
    (perm : Permissions) : Pending (notifyAll pc q x) p perm ↔ Pending (pc x) p perm := by
  unfold notifyAll
  split
  · next p' perm' deps hx =>
    split_ifs
    · rw [hx]
      constructor
      · rintro ⟨⟩
        exact .waiting _ _ _
      · rintro ⟨⟩
        exact .notified _ _ _
    · rw [hx]
  · rfl

/-- A thread that starts and ends outside an acquire changes no wait. -/
theorem pending_update {pc : Tid → Pc Tid Pid} {tid : Tid} {q : Pc Tid Pid}
    (h : ∀ p perm, Pending q p perm ↔ Pending (pc tid) p perm) (x : Tid) (p : Pid)
    (perm : Permissions) : Pending (Function.update pc tid q x) p perm ↔ Pending (pc x) p perm := by
  by_cases hx : x = tid
  · subst hx
    rw [Function.update_self]
    exact h p perm
  · rw [Function.update_of_ne hx]

/-! ## Soundness: the edges of the graph -/

/-- Every edge joins a waiting transaction to a holder of the page it waits for,
unless its target is one of the transactions in `D`. -/
def Current (D : Tid → Prop) (s : LockSystem Tid Pid) : Prop :=
  ∀ x y, (x, y) ∈ s.lm.dependency → D y ∨ s.Waits x y

theorem Waits.enter (hx : ∀ p, s.lm.Exclusive p) {x y tid : Tid} (hne : x ≠ tid)
    (h : s.Waits x y) (pid : Pid) (perm : Permissions) (deps : List Tid) :
    (s.enter closesCycle tid pid perm deps).Waits x y := by
  obtain ⟨p, perm', hp, hc⟩ := h
  refine ⟨p, perm', ?_, ?_⟩
  · rwa [enter_pc_of_ne hne]
  · rw [enter_lm]
    exact hc.tryAquire hx tid pid perm deps

theorem current_enter {D : Tid → Prop} (hx : ∀ p, s.lm.Exclusive p) (h : Current D s)
    {tid : Tid} {pid : Pid} {perm : Permissions} {deps : List Tid}
    (he : s.Enters e tid pid perm deps) :
    Current D (s.enter closesCycle tid pid perm deps) := by
  intro x y hxy
  by_cases hg : (s.lm.tryAquire closesCycle tid pid perm deps).1 = .granted
  · -- A granted request had no conflicting holder, so its transaction has no live edge.
    rw [enter_lm] at hxy
    refine (h x y ((LockManager.tryAquire_granted_dependency hg).1 hxy)).imp_right fun hw => ?_
    have hne : x ≠ tid := by
      rintro rfl
      obtain ⟨p, perm', hp, hc⟩ := hw
      obtain ⟨rfl, rfl⟩ := he.not_pending_or hp
      exact LockManager.tryAquire_not_granted hx deps hc hg
    exact hw.enter hx hne pid perm deps
  · obtain ⟨ds, heq, hds, _⟩ := LockManager.tryAquire_blocked hx hg
    rw [enter_lm, heq] at hxy
    cases ho : (s.lm.waitFor closesCycle tid ds).1 with
    | granted => exact absurd ho (LockManager.waitFor_not_granted closesCycle s.lm tid ds)
    | wait =>
      rw [(LockManager.waitFor_wait ho).2] at hxy
      have hpc : Pending ((s.enter closesCycle tid pid perm deps).pc tid) pid perm := by
        have hs : s.lm.tryAquire closesCycle tid pid perm deps =
            (.wait, (s.lm.waitFor closesCycle tid ds).2.1,
              (s.lm.waitFor closesCycle tid ds).2.2) := by
          rw [heq, ← ho]
        simp only [LockSystem.enter, hs, Function.update_self]
        exact .waiting _ _ _
      have hown : ∀ d, s.lm.Conflicts perm pid tid d →
          (s.enter closesCycle tid pid perm deps).Waits tid d := by
        intro d hd
        refine ⟨pid, perm, hpc, ?_⟩
        rw [enter_lm]
        exact hd.tryAquire hx tid pid perm deps
      rcases LockManager.mem_addDepsLoop ds hxy with hold | ⟨rfl, hy, hyt⟩
      · refine (h x y hold).imp_right fun hw => ?_
        by_cases hne : x = tid
        · subst hne
          obtain ⟨p, perm', hp, hc⟩ := hw
          obtain ⟨rfl, rfl⟩ := he.not_pending_or hp
          exact hown y hc
        · exact hw.enter hx hne pid perm deps
      · exact .inr (hown y ((hds y).mp ⟨hy, hyt⟩))
    | abort =>
      rw [(LockManager.waitFor_abort ho).2, LockManager.mem_removeVertex] at hxy
      obtain ⟨hmem, hne, _⟩ := hxy
      rcases LockManager.mem_addDepsLoop ds hmem with hold | ⟨hx', _⟩
      · exact (h x y hold).imp_right fun hw => hw.enter hx hne pid perm deps
      · exact absurd hx' hne

/-- Only a release can leave an edge without a holder at its end. -/
theorem current_step {D D' : Tid → Prop} (hx : ∀ p, s.lm.Exclusive p) (h : Current D s)
    (hD : ∀ y, D y → D' y)
    (hrel : ∀ tid pid next, s.Releases e tid pid next → D' tid ∨
      ∀ x perm, Pending (s.pc x) pid perm → ¬ s.lm.Conflicts perm pid x tid)
    (hs : s.step closesCycle e = some s') : Current D' s' := by
  have hmove : ∀ {t : LockSystem Tid Pid}, t.lm.dependency = s.lm.dependency →
      t.lm.ownerTrans = s.lm.ownerTrans → t.lm.sharedTrans = s.lm.sharedTrans →
      (∀ x p perm, Pending (t.pc x) p perm ↔ Pending (s.pc x) p perm) → Current D' t := by
    intro t hE ho hsh hp x y hxy
    rw [hE] at hxy
    rcases h x y hxy with hd | ⟨p, perm, hpe, hc⟩
    · exact .inl (hD y hd)
    · refine .inr ⟨p, perm, (hp x p perm).mpr hpe, ?_⟩
      simpa only [LockManager.Conflicts, LockManager.Holds, ho, hsh] using hc
  cases stepped hs with
  | enter he =>
    intro x y hxy
    exact (current_enter hx h he x y hxy).imp_left (hD y)
  | @release tid pid next hr =>
    intro x y hxy
    rcases h x y hxy with hd | ⟨p, perm, hpe, hc⟩
    · exact .inl (hD y hd)
    · have hne : x ≠ tid := by
        rintro rfl
        exact (hr.not_pending p perm).1 hpe
      have hpe' : Pending ((s.release tid pid next).pc x) p perm := by
        simp only [LockSystem.release, Function.update_of_ne hne]
        exact (pending_notifyAll _ _ _ _ _).mpr hpe
      by_cases hy : y = tid
      · subst hy
        by_cases hpp : p = pid
        · subst hpp
          rcases hrel y p next hr with hd | hno
          · exact .inl hd
          · exact absurd hc (hno x perm hpe)
        · exact .inr ⟨p, perm, hpe',
            (LockManager.releaseLock_conflicts_of_page hpp perm x y).mpr hc⟩
      · exact .inr ⟨p, perm, hpe',
          (LockManager.releaseLock_conflicts_of_ne hy pid p perm x).mpr hc⟩
  | wake hw =>
    refine hmove rfl rfl rfl (pending_update fun p perm => ?_)
    rw [hw]
    constructor
    · rintro ⟨⟩
      exact .waiting _ _ _
    · rintro ⟨⟩
      exact .notified _ _ _
  | record hw =>
    refine hmove rfl rfl rfl (pending_update fun p perm => ?_)
    rw [hw]
    constructor <;> rintro ⟨⟩
  | unrecord hw =>
    refine hmove rfl rfl rfl (pending_update fun p perm => ?_)
    rw [hw]
    constructor <;> rintro ⟨⟩
  | begin hw =>
    refine hmove rfl rfl rfl (pending_update fun p perm => ?_)
    rw [hw]
    constructor <;> rintro ⟨⟩
  | finish hw =>
    refine hmove rfl rfl rfl (pending_update fun p perm => ?_)
    rw [hw]
    constructor <;> rintro ⟨⟩

/-- An abort comes with a real cycle whenever the edges are current and the
excepted transactions do not wait. -/
theorem abort_cycle {D : Tid → Prop} (hc : LockManager.DagEdgeSpec closesCycle)
    (hx : ∀ p, s.lm.Exclusive p) (h : Current D s)
    (hD : ∀ x, D x → ∀ p perm, ¬ Pending (s.pc x) p perm) {tid : Tid} {pid : Pid}
    {perm : Permissions} {deps : List Tid} (ht : ¬ D tid)
    (ha : (s.lm.tryAquire closesCycle tid pid perm deps).1 = .abort) :
    TransGen (s.WaitsWith tid pid perm) tid tid := by
  have hg : (s.lm.tryAquire closesCycle tid pid perm deps).1 ≠ .granted := by simp [ha]
  obtain ⟨ds, heq, hds, _⟩ := LockManager.tryAquire_blocked hx hg
  rw [heq] at ha
  obtain ⟨d, hd, hdt, hpath⟩ :=
    LockManager.addDepsLoop_cycle hc ds (LockManager.waitFor_abort ha).1
  -- Read the path backwards from tid: its target waits or is tid, so each edge is current.
  have hreal : ReflTransGen (s.WaitsWith tid pid perm) d tid ∧ ¬ D d := by
    clear hd hdt
    induction hpath using ReflTransGen.head_induction_on with
    | refl => exact ⟨.refl, ht⟩
    | @head a b hab _ ih =>
      obtain ⟨hbt, hb⟩ := ih
      have hw : s.Waits a b := (h a b hab).resolve_left hb
      obtain ⟨p, perm', hp, _⟩ := id hw
      exact ⟨.head (.inl hw) hbt, fun hDa => hD a hDa p perm' hp⟩
  exact .head' (.inr ⟨rfl, (hds d).mp ⟨hd, hdt⟩⟩) hreal.1

/-- Two-phase use: no transaction asks for a lock after it has given one up. -/
def TwoPhase (s : LockSystem Tid Pid) : LockEvent Tid Pid → Prop
  | .acquireLock tid _ _ => s.gaveUp tid = false
  | _ => True

instance : DecidableRel (TwoPhase : LockSystem Tid Pid → LockEvent Tid Pid → Prop) := fun s e => by
  cases e <;> unfold TwoPhase <;> infer_instance

/-- The step does not give up a lock that another transaction is waiting for. -/
def NoHandover (s : LockSystem Tid Pid) (e : LockEvent Tid Pid) : Prop :=
  ∀ tid pid next, s.Releases e tid pid next →
    ∀ x perm, Pending (s.pc x) pid perm → ¬ s.lm.Conflicts perm pid x tid

/-- A thread is found in an acquire only if it was before or has just entered it. -/
theorem pending_step (hs : s.step closesCycle e = some s') {x : Tid} {p : Pid}
    {perm : Permissions} (h : Pending (s'.pc x) p perm) :
    Pending (s.pc x) p perm ∨ ∃ deps, s.Enters e x p perm deps := by
  have hback : ∀ {tid : Tid} {q : Pc Tid Pid}, (∀ p perm, ¬ Pending q p perm) →
      Pending (Function.update s.pc tid q x) p perm → Pending (s.pc x) p perm := by
    intro tid q hq h
    by_cases hx : x = tid
    · subst hx
      rw [Function.update_self] at h
      exact absurd h (hq p perm)
    · rwa [Function.update_of_ne hx] at h
  cases stepped hs with
  | @enter tid pid perm' deps he =>
    by_cases hx : x = tid
    · subst hx
      refine .inr ⟨deps, ?_⟩
      unfold LockSystem.enter at h
      split at h
      · simp only [Function.update_self] at h
        cases h
      · simp only [Function.update_self] at h
        cases h
        exact he
      · simp only [Function.update_self] at h
        cases h
    · rw [enter_pc_of_ne hx] at h
      exact .inl h
  | @release tid pid next hr =>
    simp only [LockSystem.release] at h
    by_cases hx : x = tid
    · subst hx
      rw [Function.update_self] at h
      exact absurd h (hr.not_pending p perm).2
    · rw [Function.update_of_ne hx] at h
      exact .inl ((pending_notifyAll _ _ _ _ _).mp h)
  | @wake tid pid perm' deps hw =>
    refine .inl ((pending_update (fun p perm => ?_) x p perm).mp h)
    rw [hw]
    constructor
    · rintro ⟨⟩
      exact .waiting _ _ _
    · rintro ⟨⟩
      exact .notified _ _ _
  | record _ => exact .inl (hback (by rintro _ _ ⟨⟩) h)
  | unrecord _ => exact .inl (hback (by rintro _ _ ⟨⟩) h)
  | begin _ => exact .inl (hback (by rintro _ _ ⟨⟩) h)
  | finish _ => exact .inl (hback (by rintro _ _ ⟨⟩) h)

theorem gaveUp_step (hs : s.step closesCycle e = some s') (x : Tid) :
    (s.gaveUp x = true → s'.gaveUp x = true) ∧
      (∀ pid next, s.Releases e x pid next → s'.gaveUp x = true) ∧
      (s'.gaveUp x = true → s.gaveUp x = true ∨ ∃ pid next, s.Releases e x pid next) := by
  have hkeep : ∀ {t : LockSystem Tid Pid}, t.gaveUp = s.gaveUp →
      (∀ pid next, ¬ s.Releases e x pid next) →
      (s.gaveUp x = true → t.gaveUp x = true) ∧
      (∀ pid next, s.Releases e x pid next → t.gaveUp x = true) ∧
      (t.gaveUp x = true → s.gaveUp x = true ∨ ∃ pid next, s.Releases e x pid next) := by
    intro t ht hno
    rw [ht]
    exact ⟨fun h => h, fun pid next hr => absurd hr (hno pid next), .inl⟩
  cases e with
  | acquireLock tid pid perm =>
    refine hkeep ?_ (by rintro _ _ ⟨⟩)
    simp only [step] at hs
    split at hs
    · cases hs
      unfold LockSystem.enter
      split <;> rfl
    · cases hs
  | resume tid =>
    refine hkeep ?_ (by rintro _ _ ⟨⟩)
    simp only [step] at hs
    split at hs
    · cases hs
      unfold LockSystem.enter
      split <;> rfl
    · cases hs
  | releasePage tid pid =>
    simp only [step] at hs
    split at hs
    · next hi =>
      cases hs
      by_cases hx : x = tid
      · subst hx
        simp only [release, Function.update_self]
        exact ⟨fun _ => trivial, fun _ _ _ => trivial, fun _ => .inr ⟨pid, _, .one hi⟩⟩
      · simp only [release, Function.update_of_ne hx]
        exact ⟨fun h => h, fun _ _ hr => by cases hr; exact absurd rfl hx, .inl⟩
    · cases hs
  | releaseNext tid =>
    simp only [step] at hs
    split at hs
    · next pid rest hi =>
      cases hs
      by_cases hx : x = tid
      · subst hx
        simp only [release, Function.update_self]
        exact ⟨fun _ => trivial, fun _ _ _ => trivial, fun _ => .inr ⟨pid, _, .next hi⟩⟩
      · simp only [release, Function.update_of_ne hx]
        exact ⟨fun h => h, fun _ _ hr => by cases hr; exact absurd rfl hx, .inl⟩
    · next hi =>
      cases hs
      refine hkeep rfl fun pid next hr => ?_
      cases hr with
      | next hr => simp [hi] at hr
    · cases hs
  | wake tid | record tid | unrecord tid | releasePages tid =>
    refine hkeep ?_ (by rintro _ _ ⟨⟩)
    simp only [step] at hs
    split at hs
    · cases hs
      rfl
    · cases hs

/-- The invariant of two-phase runs: what is left of an old wait points at a
transaction that will not wait again. -/
structure SoundInv (s : LockSystem Tid Pid) : Prop where
  exclusive : ∀ p, s.lm.Exclusive p
  current : Current (fun y => s.gaveUp y = true) s
  quiet : ∀ x, s.gaveUp x = true → ∀ p perm, ¬ Pending (s.pc x) p perm

theorem soundInv_reaches (h : Reaches (step closesCycle) TwoPhase init s) : SoundInv s := by
  refine h.invariant ?_ ?_
  · exact ⟨fun _ => .inr ⟨rfl, List.nodup_nil⟩, fun _ _ h => (List.not_mem_nil h).elim,
      fun _ h => absurd h Bool.false_ne_true⟩
  · intro s e s' hi hok hs
    refine ⟨exclusive_step hi.exclusive hs, ?_, ?_⟩
    · refine current_step hi.exclusive hi.current (fun y => (gaveUp_step hs y).1) ?_ hs
      intro tid pid next hr
      exact .inl ((gaveUp_step hs tid).2.1 pid next hr)
    · intro x hg p perm hp
      rcases (gaveUp_step hs x).2.2 hg with hg | ⟨pid, next, hr⟩
      · rcases pending_step hs hp with hp | ⟨deps, he⟩
        · exact hi.quiet x hg p perm hp
        · cases he with
          | start _ => exact absurd hg (by simpa [TwoPhase] using hok)
          | again hn => exact hi.quiet x hg p perm (hn ▸ .notified _ _ _)
      · rcases pending_step hs hp with hp | ⟨deps, he⟩
        · exact (hr.not_pending p perm).1 hp
        · cases hr <;> cases he

theorem current_reaches (h : Reaches (step closesCycle) NoHandover init s) :
    Current (fun _ => False) s := by
  refine (h.invariant (I := fun s => (∀ p, s.lm.Exclusive p) ∧ Current (fun _ => False) s)
    ?_ ?_).2
  · exact ⟨fun _ => .inr ⟨rfl, List.nodup_nil⟩, fun _ _ h => (List.not_mem_nil h).elim⟩
  · intro s e s' hi hok hs
    exact ⟨exclusive_step hi.1 hs, current_step hi.1 hi.2 (fun _ h => h)
      (fun tid pid next hr => .inr (hok tid pid next hr)) hs⟩

/-- Aborts are justified in every two-phase run; and while no lock is handed over
to a waiting transaction, every edge is one of the wait-for relation, so that
aborts are justified then too. -/
theorem deadlock_detection_sound (hc : LockManager.DagEdgeSpec closesCycle) :
    (∀ (s : LockSystem Tid Pid) e tid pid perm deps,
      Reaches (step closesCycle) TwoPhase init s → TwoPhase s e → s.Enters e tid pid perm deps →
      (s.lm.tryAquire closesCycle tid pid perm deps).1 = .abort →
      TransGen (s.WaitsWith tid pid perm) tid tid) ∧
    (∀ s : LockSystem Tid Pid, Reaches (step closesCycle) NoHandover init s →
      (∀ x y, (x, y) ∈ s.lm.dependency → s.Waits x y) ∧
      ∀ tid pid perm deps, (s.lm.tryAquire closesCycle tid pid perm deps).1 = .abort →
        TransGen (s.WaitsWith tid pid perm) tid tid) := by
  constructor
  · intro s e tid pid perm deps h hok he ha
    have hi := soundInv_reaches h
    refine abort_cycle hc hi.exclusive hi.current hi.quiet ?_ ha
    cases he with
    | start _ => simpa [TwoPhase] using hok
    | again hn => exact fun hg => hi.quiet tid hg pid perm (hn ▸ .notified _ _ _)
  · intro s h
    have hx : ∀ p, s.lm.Exclusive p := exclusive_reaches h
    have hcur := current_reaches h
    exact ⟨fun x y hxy => (hcur x y hxy).resolve_left id,
      fun tid pid perm deps ha => abort_cycle hc hx hcur (fun _ h => h.elim) id ha⟩

/-- Two transactions that each hold what the other asks for: the second is aborted,
and the cycle is real. -/
theorem deadlock_detection_sound_crossed :
    ∃ s : LockSystem ℕ ℕ, Reaches (step LockManager.searchCycle) TwoPhase init s ∧
      TransGen (s.WaitsWith 2 0 .readWrite) 2 2 := by
  obtain ⟨s, hs⟩ : ∃ s, runWhile (step LockManager.searchCycle)
      (fun s e => decide (TwoPhase s e)) (init : LockSystem ℕ ℕ)
      [.acquireLock 1 0 .readWrite, .record 1, .acquireLock 2 1 .readWrite, .record 2,
        .acquireLock 1 1 .readWrite] = some s := ⟨_, rfl⟩
  have hr := (reaches_runWhile _ .refl hs).mono fun _ _ h => of_decide_eq_true h
  refine ⟨s, hr, (deadlock_detection_sound LockManager.dagEdgeSpec_searchCycle).1 s
    (.acquireLock 2 0 .readWrite) 2 0 .readWrite [] hr ?_ ?_ ?_⟩ <;> cases hs
  · rfl
  · exact .start rfl
  · decide

/-- Transaction 2 gives page 1 up to the waiting 1 and then asks for page 0, which
1 holds. The edge from 1 to 2 is still there, and 2 is aborted though nobody
holds what 1 waits for. -/
theorem deadlock_detection_unsound :
    ∃ s : LockSystem ℕ (Fin 2), Reachable (step LockManager.searchCycle) init s ∧
      s.Enters (.acquireLock 2 0 .readWrite) 2 0 .readWrite [] ∧
      (s.lm.tryAquire LockManager.searchCycle 2 0 .readWrite []).1 = .abort ∧
      ¬ TransGen (s.WaitsWith 2 0 .readWrite) 2 2 ∧
      (1, 2) ∈ s.lm.dependency ∧ ¬ s.Waits 1 2 := by
  obtain ⟨s, hs⟩ : ∃ s, runWhile (step LockManager.searchCycle) (fun _ _ => true)
      (init : LockSystem ℕ (Fin 2))
      [.acquireLock 1 0 .readWrite, .record 1, .acquireLock 2 1 .readWrite, .record 2,
        .acquireLock 1 1 .readWrite, .releasePage 2 1, .unrecord 2] = some s := ⟨_, rfl⟩
  have hr := reachable_runWhile _ hs
  have hnone : ∀ p, ¬ s.lm.Holds 2 p := by
    cases hs
    decide
  have hno : ∀ x, ¬ s.Waits x 2 := fun x ⟨p, _, _, hc⟩ => hnone p hc.holds
  refine ⟨s, hr, ?_, ?_, ?_, ?_, hno 1⟩
  · cases hs
    exact .start rfl
  · cases hs
    decide
  · intro hcyc
    obtain ⟨x, _, hx | ⟨rfl, hx⟩⟩ := TransGen.tail'_iff.mp hcyc
    · exact hno x hx
    · exact hx.1 rfl
  · cases hs
    decide

end LockSystem

end Courses.SimpleDb
