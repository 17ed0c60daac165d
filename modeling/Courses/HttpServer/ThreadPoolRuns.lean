import Courses.HttpServer.ThreadPool
import Mathlib.Data.Fintype.BigOperators

/-!
# Runs of the thread pool

A worker goes to wait only when it has found the queue empty under the lock, so a queued
task always has a worker that will look at the queue again; and once `killthreads_` is set
no worker waits, so the destructor can join them all. With the tickets this gives that every
task is run once, in every run of the pool.
-/
namespace Courses.HttpServer.ThreadPool

open Lib

variable {n : ℕ} {Task : Type*} {σ σ' : ThreadPool n Task}

/-! ### The owner and the workers -/

/-- A sum over the workers. -/
def weigh (σ : ThreadPool n Task) (f : Worker Task → ℕ) : ℕ := ∑ i, f (σ.workers i)

theorem weigh_setWorker (f : Worker Task → ℕ) (i : Fin n) (w : Worker Task) :
    (σ.setWorker i w).weigh f + f (σ.workers i) = σ.weigh f + f w := by
  have hnew := Finset.sum_erase_add Finset.univ (fun j => f (Function.update σ.workers i w j))
    (Finset.mem_univ i)
  have hold := Finset.sum_erase_add Finset.univ (fun j => f (σ.workers j)) (Finset.mem_univ i)
  have hrest : ∑ j ∈ Finset.univ.erase i, f (Function.update σ.workers i w j) =
      ∑ j ∈ Finset.univ.erase i, f (σ.workers j) := by
    refine Finset.sum_congr rfl fun j hj => ?_
    rw [Function.update_of_ne (Finset.ne_of_mem_erase hj)]
  simp only [Function.update_self] at hnew
  simp only [weigh, setWorker]
  omega

def running (w : Worker Task) : ℕ := w.isLive.toNat

theorem running_of_isLive {w : Worker Task} (h : w.isLive = true) : running w = 1 := by
  simp [running, h]

def PhaseOk (σ : ThreadPool n Task) : Prop :=
  match σ.owner with
  | .constructing => σ.killthreads = false ∧ σ.workQueue = []
  | .ready => σ.killthreads = false ∧ ∀ j, (σ.workers j).isLive = true
  | .joining i num => σ.killthreads = true ∧ num = n ∧ i < n ∧
      (∀ j, (σ.workers j).isActive = true ∨ σ.workers j = .exited) ∧
      ∀ j : Fin n, j < i → σ.workers j = .exited
  | .draining => σ.killthreads = true ∧ ∀ j, σ.workers j = .exited
  | .returned => σ.killthreads = true ∧ σ.workQueue = [] ∧ ∀ j, σ.workers j = .exited
  | .aborted why => why = .lateDispatch

structure Controlled (σ : ThreadPool n Task) : Prop where
  count : σ.numThreadsRunning = σ.weigh running
  phase : σ.PhaseOk
  alert : σ.killthreads = false → σ.workQueue ≠ [] → ∃ i, (σ.workers i).isActive = true

theorem controlled_init : Controlled (init n Task) where
  count := by simp [init, weigh, running, Worker.isLive]
  phase := ⟨rfl, rfl⟩
  alert := by simp [init]

/-- A worker that was waiting, or stood in a section, goes on: it stays counted, and the owner
notices nothing. -/
theorem PhaseOk.setWorker {i : Fin n} {w : Worker Task} (h : σ.PhaseOk)
    (hold : (σ.workers i).isLive = true) (hlive : w.isLive = true)
    (hkill : σ.killthreads = true → w.isActive = true) : (σ.setWorker i w).PhaseOk := by
  have hnot : σ.workers i ≠ .exited := fun heq => by simp [heq, Worker.isLive] at hold
  unfold PhaseOk at h ⊢
  cases howner : σ.owner with
  | constructing => simpa [howner, ThreadPool.setWorker] using h
  | ready =>
    simp only [howner, ThreadPool.setWorker] at h ⊢
    refine ⟨h.1, fun j => ?_⟩
    by_cases hj : j = i
    · rw [hj, Function.update_self]
      exact hlive
    · rw [Function.update_of_ne hj]
      exact h.2 j
  | joining k num =>
    simp only [howner, ThreadPool.setWorker] at h ⊢
    obtain ⟨hk, hnum, hlt, hall, hjoined⟩ := h
    refine ⟨hk, hnum, hlt, fun j => ?_, fun j hj => ?_⟩
    · by_cases hj : j = i
      · rw [hj, Function.update_self]
        exact .inl (hkill hk)
      · rw [Function.update_of_ne hj]
        exact hall j
    · have hne : j ≠ i := fun heq => hnot (heq ▸ hjoined j hj)
      rw [Function.update_of_ne hne]
      exact hjoined j hj
  | draining =>
    simp only [howner] at h
    exact absurd (h.2 i) hnot
  | returned =>
    simp only [howner] at h
    exact absurd (h.2.2 i) hnot
  | aborted why => simpa [howner, ThreadPool.setWorker] using h

theorem count_setWorker {i : Fin n} {w : Worker Task}
    (h : σ.numThreadsRunning = σ.weigh running) (hold : (σ.workers i).isLive = true)
    (hlive : w.isLive = true) : σ.numThreadsRunning = (σ.setWorker i w).weigh running := by
  have hsum := weigh_setWorker (σ := σ) running i w
  rw [running_of_isLive hold, running_of_isLive hlive] at hsum
  rw [h]
  exact (Nat.add_right_cancel hsum).symm

/-- A worker becomes active, and with it the queue is attended to. -/
theorem Controlled.activate (h : Controlled σ) {i : Fin n} {w : Worker Task}
    (hold : (σ.workers i).isLive = true) (hlive : w.isLive = true) (hactive : w.isActive = true) :
    Controlled (σ.setWorker i w) where
  count := count_setWorker h.count hold hlive
  phase := h.phase.setWorker hold hlive fun _ => hactive
  alert _ _ := ⟨i, by simp [ThreadPool.setWorker, hactive]⟩

/-- A worker leaves, which it does only when it has been told to. -/
theorem Controlled.exit (h : Controlled σ) {i : Fin n} (hold : (σ.workers i).isActive = true)
    (hkill : σ.killthreads = true) : Controlled (σ.exit i) := by
  obtain ⟨hcount, hphase, -⟩ := h
  have hlive : (σ.workers i).isLive = true := by
    cases hw : σ.workers i <;> simp_all [Worker.isActive, Worker.isLive]
  have hnot : σ.workers i ≠ .exited := fun heq => by simp [heq, Worker.isActive] at hold
  refine ⟨?_, ?_, ?_⟩
  · have hsum : (σ.exit i).weigh running + running (σ.workers i) = σ.weigh running + 0 :=
      weigh_setWorker running i .exited
    rw [running_of_isLive hlive, ← hcount] at hsum
    change σ.numThreadsRunning - 1 = _
    omega
  · unfold PhaseOk at hphase ⊢
    cases howner : σ.owner with
    | constructing => simp_all
    | ready => simp_all
    | joining k num =>
      simp only [howner, ThreadPool.exit, ThreadPool.setWorker] at hphase ⊢
      obtain ⟨hk, hnum, hlt, hall, hjoined⟩ := hphase
      refine ⟨hk, hnum, hlt, fun j => ?_, fun j hj => ?_⟩
      · by_cases hj : j = i
        · exact .inr (by rw [hj, Function.update_self])
        · rw [Function.update_of_ne hj]
          exact hall j
      · have hne : j ≠ i := fun heq => hnot (heq ▸ hjoined j hj)
        rw [Function.update_of_ne hne]
        exact hjoined j hj
    | draining =>
      simp only [howner] at hphase
      exact absurd (hphase.2 i) hnot
    | returned =>
      simp only [howner] at hphase
      exact absurd (hphase.2.2 i) hnot
    | aborted why => simpa [howner, ThreadPool.exit, ThreadPool.setWorker] using hphase
  · intro hfalse
    simp [ThreadPool.exit, ThreadPool.setWorker, hkill] at hfalse

theorem Controlled.loopSection (h : Controlled σ) {i : Fin n}
    (hold : (σ.workers i).isActive = true) : Controlled (σ.loopSection i) := by
  have hlive : (σ.workers i).isLive = true := by
    cases hw : σ.workers i <;> simp_all [Worker.isActive, Worker.isLive]
  unfold ThreadPool.loopSection
  split
  · rename_i hkill
    exact h.exit hold hkill
  · rename_i hkill
    split
    · rename_i hqueue
      -- the only way to wait again: the queue is empty
      exact ⟨count_setWorker h.count hlive rfl,
        h.phase.setWorker hlive rfl fun hk => absurd hk hkill,
        fun _ hne => absurd hqueue hne⟩
    · rename_i e rest hqueue
      have htook := h.activate (w := .took e) hlive rfl rfl
      refine ⟨htook.count, ?_, fun hk _ => htook.alert hk ?_⟩
      · have hphase := htook.phase
        unfold PhaseOk at hphase ⊢
        cases howner : σ.owner <;>
          simp_all [ThreadPool.setWorker, ThreadPool.take]
      · simp [ThreadPool.setWorker, hqueue]

theorem Controlled.born (h : Controlled σ) (hrun : ∀ why, σ.owner ≠ .aborted why) {i : Fin n}
    (hold : σ.workers i = .created) : Controlled (σ.born i) := by
  obtain ⟨hcount, hphase, halert⟩ := h
  -- a worker is born only while the constructor waits for it
  have howner : σ.owner = .constructing := by
    unfold PhaseOk at hphase
    cases howner : σ.owner with
    | constructing => rfl
    | ready =>
      simp only [howner] at hphase
      have hlive := hphase.2 i
      simp [hold, Worker.isLive] at hlive
    | joining k num =>
      simp only [howner] at hphase
      have hi := hphase.2.2.2.1 i
      simp [hold, Worker.isActive] at hi
    | draining =>
      simp only [howner] at hphase
      have hi := hphase.2 i
      simp [hold] at hi
    | returned =>
      simp only [howner] at hphase
      have hi := hphase.2.2 i
      simp [hold] at hi
    | aborted why => exact absurd howner (hrun why)
  simp only [PhaseOk, howner] at hphase
  have hborn : σ.born i =
      { σ.setWorker i .waiting with numThreadsRunning := σ.numThreadsRunning + 1 } := by
    have hkill : ¬ σ.killthreads = true := by simp [hphase.1]
    exact if_neg hkill
  rw [hborn]
  refine ⟨?_, ?_, fun _ hne => absurd hphase.2 hne⟩
  · have hsum : (σ.setWorker i .waiting).weigh running + running (σ.workers i) =
        σ.weigh running + 1 := weigh_setWorker running i .waiting
    rw [hold, ← hcount] at hsum
    exact hsum.symm
  · simp only [PhaseOk, ThreadPool.setWorker, howner]
    exact hphase

theorem Controlled.checkBorn (h : Controlled σ) (howner : σ.owner = .constructing) :
    Controlled σ.checkBorn := by
  unfold ThreadPool.checkBorn
  split
  · rename_i hnum
    have hphase := h.phase
    simp only [PhaseOk, howner] at hphase
    refine ⟨h.count, ⟨hphase.1, fun j => ?_⟩, h.alert⟩
    -- `n` workers are counted, so each of them is
    by_contra hlive
    change ¬ (σ.workers j).isLive = true at hlive
    have hzero : running (σ.workers j) = 0 := by simp [running, hlive]
    have hlt : σ.weigh running < ∑ _ : Fin n, 1 := by
      refine Finset.sum_lt_sum (fun k _ => ?_) ⟨j, Finset.mem_univ j, by omega⟩
      simp only [running]
      cases (σ.workers k).isLive <;> simp
    have hcount := h.count
    simp only [Finset.sum_const, Finset.card_univ, Fintype.card_fin, smul_eq_mul, mul_one] at hlt
    omega
  · exact h

theorem isActive_of_isLive {w : Worker Task} (hlive : w.isLive = true)
    (hwait : w.isWaiting = false) : w.isActive = true := by
  cases w <;> simp_all [Worker.isLive, Worker.isWaiting, Worker.isActive]

theorem isLive_wake {woken : Finset (Fin n)} (hsignal : σ.CanSignal woken) (i : Fin n) :
    ((σ.wake woken).workers i).isLive = (σ.workers i).isLive := by
  by_cases hi : i ∈ woken
  · have hwaiting := hsignal.1 i hi
    cases hw : σ.workers i <;> simp_all [wake, Worker.isWaiting, Worker.isLive]
  · simp [wake, hi]

theorem Controlled.dispatch (h : Controlled σ) (hn : 1 ≤ n)
    (hrun : ∀ why, σ.owner ≠ .aborted why) {t : Task} {woken : Finset (Fin n)}
    (hopen : σ.owner ≠ .constructing) (hsignal : σ.CanSignal woken) :
    Controlled (σ.dispatch t woken) := by
  unfold ThreadPool.dispatch
  split
  · rename_i hkill
    refine ⟨h.count, rfl, fun hfalse => ?_⟩
    simp [abort, hkill] at hfalse
  · rename_i hkill
    have hphase := h.phase
    have howner : σ.owner = .ready := by
      unfold PhaseOk at hphase
      cases howner : σ.owner <;> simp_all
    simp only [PhaseOk, howner] at hphase
    refine ⟨?_, ?_, fun _ _ => ?_⟩
    · change σ.numThreadsRunning = (σ.wake woken).weigh running
      rw [h.count]
      simp only [weigh, running, isLive_wake hsignal]
    · simp only [PhaseOk, wake, howner]
      refine ⟨hphase.1, fun j => ?_⟩
      have hlive := isLive_wake hsignal j
      rw [hphase.2 j] at hlive
      exact hlive
    · -- the signal has woken a worker, or every worker is at work
      change ∃ i, ((σ.wake woken).workers i).isActive = true
      by_cases hempty : woken = ∅
      · refine ⟨⟨0, hn⟩, ?_⟩
        have hwait := hsignal.2 hempty ⟨0, hn⟩
        simpa [wake, hempty] using isActive_of_isLive (hphase.2 ⟨0, hn⟩) hwait
      · obtain ⟨i, hi⟩ := Finset.nonempty_iff_ne_empty.2 hempty
        exact ⟨i, by simp [wake, hi, Worker.isActive]⟩

theorem isLive_broadcast (i : Fin n) :
    (σ.broadcast.workers i).isLive = (σ.workers i).isLive := by
  cases hw : σ.workers i <;> simp [broadcast, hw, Worker.isWaiting, Worker.isLive]

theorem broadcast_active {i : Fin n} (h : (σ.workers i).isLive = true ∨ σ.workers i = .exited) :
    (σ.broadcast.workers i).isActive = true ∨ σ.broadcast.workers i = .exited := by
  cases hw : σ.workers i <;>
    simp_all [broadcast, Worker.isWaiting, Worker.isLive, Worker.isActive]

/-- The owner goes on to the next join, or past the last one. -/
theorem Controlled.joinFrom {i : ℕ} (hcount : σ.numThreadsRunning = σ.weigh running)
    (hkill : σ.killthreads = true)
    (hall : ∀ j, (σ.workers j).isLive = true ∨ σ.workers j = .exited) (hi : i ≤ n)
    (hjoined : ∀ j : Fin n, j < i → σ.workers j = .exited) : Controlled (σ.joinFrom i n) := by
  unfold ThreadPool.joinFrom
  split
  · rename_i hlt
    refine ⟨?_, ⟨hkill, rfl, hlt, fun j => broadcast_active (hall j), fun j hj => ?_⟩, ?_⟩
    · change σ.numThreadsRunning = σ.broadcast.weigh running
      rw [hcount]
      simp only [weigh, running, isLive_broadcast]
    · simp [broadcast, hjoined j hj, Worker.isWaiting]
    · intro hfalse
      simp [broadcast, hkill] at hfalse
  · rename_i hge
    have hexited : ∀ j, σ.workers j = .exited := fun j => hjoined j (by omega)
    have hzero : σ.numThreadsRunning = 0 := by
      rw [hcount]
      simp [weigh, running, hexited, Worker.isLive]
    rw [if_pos hzero]
    refine ⟨hcount, ⟨hkill, hexited⟩, fun hfalse => ?_⟩
    simp [hkill] at hfalse

theorem Controlled.moves (h : Controlled σ) (hn : 1 ≤ n) (hrun : ∀ why, σ.owner ≠ .aborted why)
    (hmove : Moves σ σ') : Controlled σ' := by
  have hphase := h.phase
  cases hmove with
  | born i hw => exact h.born hrun hw
  | spurious i hw => exact h.activate (by rw [hw]; rfl) rfl rfl
  | loop i hw =>
    refine h.loopSection ?_
    obtain hw | hw := hw <;> rw [hw] <;> rfl
  | call i e hw =>
    have hcalled := h.activate (w := .called) (i := i) (by rw [hw]; rfl) rfl rfl
    exact ⟨hcalled.count, hcalled.phase, hcalled.alert⟩
  | checkBorn howner => exact h.checkBorn howner
  | dispatch t woken hopen hlast hsignal => exact h.dispatch hn hrun hopen hsignal
  | destroy howner =>
    simp only [PhaseOk, howner] at hphase
    have hnum : σ.numThreadsRunning = n := by
      rw [h.count]
      simp [weigh, running, hphase.2]
    have hdestroy : σ.destroy = ThreadPool.joinFrom { σ with killthreads := true } 0 n :=
      congrArg (ThreadPool.joinFrom _ 0) hnum
    rw [hdestroy]
    exact Controlled.joinFrom h.count rfl (fun j => .inl (hphase.2 j)) (Nat.zero_le n)
      (fun j hj => absurd hj (Nat.not_lt_zero _))
  | join i num hi howner hexit =>
    simp only [PhaseOk, howner] at hphase
    obtain ⟨hkill, rfl, hlt, hall, hjoined⟩ := hphase
    refine Controlled.joinFrom h.count hkill (fun j => ?_) hlt (fun j hj => ?_)
    · refine (hall j).imp_left fun hactive => ?_
      cases hw : σ.workers j <;> simp_all [Worker.isActive, Worker.isLive]
    · obtain hj | hj := Nat.lt_succ_iff_lt_or_eq.1 hj
      · exact hjoined j hj
      · have heq : j = ⟨i, hi⟩ := Fin.ext hj
        rw [heq, hexit]
  | drain howner =>
    simp only [PhaseOk, howner] at hphase
    unfold drain
    split
    · rename_i hqueue
      exact ⟨h.count, ⟨hphase.1, hqueue, hphase.2⟩, fun hfalse => absurd hfalse (by simp [hphase.1])⟩
    · refine ⟨h.count, ?_, fun hfalse => absurd hfalse (by simp [hphase.1])⟩
      simp only [PhaseOk, howner]
      exact hphase

theorem reachable_booked_controlled (hn : 1 ≤ n) (h : Reachable step (init n Task) σ) :
    Booked σ ∧ Controlled σ := by
  refine h.invariant (I := fun s => Booked s ∧ Controlled s) ⟨booked_init, controlled_init⟩ ?_
  intro s e s' hinv _ hstep
  obtain ⟨hrun, hmove⟩ := moves_of_step hstep
  exact ⟨hinv.1.moves hmove, hinv.2.moves hn hrun hmove⟩

/-! ### The destructor comes to its end -/

def duty : Worker Task → ℕ
  | .took _ => 2
  | .woken | .called => 1
  | _ => 0

def InDestructor (σ : ThreadPool n Task) : Prop :=
  (∃ i num, σ.owner = .joining i num) ∨ σ.owner = .draining

/-- What is left to do in the destructor. -/
def remaining (σ : ThreadPool n Task) : ℕ :=
  match σ.owner with
  | .joining i num => σ.weigh duty + (num - i) + σ.workQueue.length + 2
  | .draining => σ.weigh duty + σ.workQueue.length + 1
  | _ => 0

theorem Controlled.killed (h : Controlled σ) (hin : InDestructor σ) :
    σ.killthreads = true ∧ ∀ j, (σ.workers j).isActive = true ∨ σ.workers j = .exited := by
  have hphase := h.phase
  obtain ⟨i, num, howner⟩ | howner := hin
  · simp only [PhaseOk, howner] at hphase
    exact ⟨hphase.1, hphase.2.2.2.1⟩
  · simp only [PhaseOk, howner] at hphase
    exact ⟨hphase.1, fun j => .inr (hphase.2 j)⟩

/-- The destructor is never stuck: the worker it joins can go on, or has left. -/
theorem Controlled.progress (h : Controlled σ) (hin : InDestructor σ) :
    ∃ e σ', σ.step e = some σ' := by
  have hphase := h.phase
  obtain ⟨i, num, howner⟩ | howner := hin
  · simp only [PhaseOk, howner] at hphase
    obtain ⟨-, -, hlt, hall, -⟩ := hphase
    cases hw : σ.workers ⟨i, hlt⟩ with
    | created | waiting => simpa [hw, Worker.isActive] using hall ⟨i, hlt⟩
    | woken => exact ⟨.resume ⟨i, hlt⟩, σ.loopSection ⟨i, hlt⟩, by simp [step, howner, stepWorker, hw]⟩
    | took e => exact ⟨.call ⟨i, hlt⟩, σ.callTask ⟨i, hlt⟩ e, by simp [step, howner, stepWorker, hw]⟩
    | called =>
      exact ⟨.relock ⟨i, hlt⟩, σ.loopSection ⟨i, hlt⟩, by simp [step, howner, stepWorker, hw]⟩
    | exited =>
      exact ⟨.join, σ.joinFrom (i + 1) num,
        by simp [step, howner, stepWorker, stepOwner, hlt, hw, Worker.isExited]⟩
  · exact ⟨.drain, σ.drain, by simp [step, howner, stepWorker, stepOwner]⟩

/-- A worker that does part of its duty brings the end nearer. -/
theorem remaining_lt (hin : InDestructor σ) (howner : σ'.owner = σ.owner)
    (hqueue : σ'.workQueue = σ.workQueue) (hduty : σ'.weigh duty < σ.weigh duty) :
    (InDestructor σ' ∨ σ'.owner = .returned) ∧ σ'.remaining < σ.remaining := by
  refine ⟨.inl ?_, ?_⟩
  · simpa only [InDestructor, howner] using hin
  · obtain ⟨i, num, hj⟩ | hd := hin
    · simp only [remaining, howner, hj, hqueue]
      omega
    · simp only [remaining, howner, hd, hqueue]
      omega

theorem weigh_broadcast (h : ∀ j, (σ.workers j).isActive = true ∨ σ.workers j = .exited) :
    σ.broadcast.weigh duty = σ.weigh duty := by
  refine Finset.sum_congr rfl fun j _ => ?_
  cases hw : σ.workers j <;> simp [broadcast, hw, Worker.isWaiting]
  simpa [hw, Worker.isActive] using h j

theorem Controlled.decreases (h : Controlled σ) (hin : InDestructor σ) (hmove : Moves σ σ') :
    σ'.owner = .aborted .lateDispatch ∨ σ'.owner = .aborted .stillRunning ∨
      (InDestructor σ' ∨ σ'.owner = .returned) ∧ σ'.remaining < σ.remaining := by
  obtain ⟨hkill, hall⟩ := h.killed hin
  have hnot : σ.owner ≠ .constructing ∧ σ.owner ≠ .ready := by
    obtain ⟨i, num, howner⟩ | howner := hin <;> simp [howner]
  cases hmove with
  | born i hw | spurious i hw => simpa [hw, Worker.isActive] using hall i
  | loop i hw =>
    have hsum := weigh_setWorker (σ := σ) duty i .exited
    have hone : duty (σ.workers i) = 1 := by
      obtain hw | hw := hw <;> rw [hw] <;> rfl
    have hloop : σ.loopSection i = σ.exit i := if_pos hkill
    rw [hone] at hsum
    rw [hloop]
    refine .inr (.inr (remaining_lt hin rfl rfl ?_))
    change (σ.setWorker i .exited).weigh duty < _
    simp only [duty] at hsum
    omega
  | call i e hw =>
    have hsum := weigh_setWorker (σ := σ) duty i .called
    rw [hw] at hsum
    refine .inr (.inr (remaining_lt hin rfl rfl ?_))
    change (σ.setWorker i .called).weigh duty < _
    simp only [duty] at hsum
    omega
  | checkBorn howner => exact absurd howner hnot.1
  | dispatch t woken _ _ _ =>
    left
    simp [ThreadPool.dispatch, hkill, abort]
  | destroy howner => exact absurd howner hnot.2
  | join i num hi howner hexit =>
    have hphase := h.phase
    simp only [PhaseOk, howner] at hphase
    obtain ⟨-, rfl, -, -, -⟩ := hphase
    unfold ThreadPool.joinFrom
    split
    · refine .inr (.inr ⟨.inl (.inl ⟨i + 1, num, rfl⟩), ?_⟩)
      have hweigh := weigh_broadcast hall
      change σ.broadcast.weigh duty + (num - (i + 1)) + σ.workQueue.length + 2 < _
      simp only [remaining, howner]
      omega
    · split
      · refine .inr (.inr ⟨.inl (.inr rfl), ?_⟩)
        change σ.weigh duty + σ.workQueue.length + 1 < _
        simp only [remaining, howner]
        omega
      · exact .inr (.inl rfl)
  | drain howner =>
    unfold drain
    split
    · refine .inr (.inr ⟨.inr rfl, ?_⟩)
      simp [remaining, howner]
    · rename_i e rest hqueue
      refine .inr (.inr ⟨.inl (.inr howner), ?_⟩)
      simp only [remaining, howner, hqueue, List.length_cons]
      change σ.weigh duty + rest.length + 1 < _
      omega

/-! ### Every task is run once -/

/-- Once the workers have left, every task that was taken has been called. -/
theorem Booked.calls_perm (h : Booked σ) (hqueue : σ.workQueue = [])
    (hexited : ∀ i, σ.workers i = .exited) :
    (σ.calls.map fun c => c.2.ticket).Perm (List.range σ.dispatched.length) := by
  have hperm : σ.calls.Perm σ.taken := by
    refine (List.perm_ext_iff_of_nodup h.calls_nodup h.tickets_nodup.of_map).2 fun c => ?_
    rw [h.mem_taken]
    simp [hexited]
  have htickets := h.tickets
  rw [hqueue, List.nil_append, List.map_map] at htickets
  exact (hperm.map _).trans htickets

/-- The pool runs every task exactly once. When the destructor returns, the calls are those of
the tasks dispatched, one for each `Dispatch`; no ticket is taken twice; a task never waits in
the queue of a pool whose workers all sleep; and the destructor comes to its end, unless a
`Dispatch` comes after its start. -/
theorem threadPool_runs_every_task_once (hn : 1 ≤ n) (h : Reachable step (init n Task) σ) :
    (σ.owner = .returned →
      (σ.calls.map fun c => c.2.ticket).Perm (List.range σ.dispatched.length) ∧
      ∀ c ∈ σ.calls, σ.dispatched[c.2.ticket]? = some c.2.task) ∧
    (σ.taken.map fun c => c.2.ticket).Nodup ∧
    ¬ (σ.workQueue ≠ [] ∧ σ.killthreads = false ∧
      ∀ i, (σ.workers i).isLive = true → (σ.workers i).isWaiting = true) ∧
    (InDestructor σ → (∃ e σ', σ.step e = some σ') ∧
      ∀ e σ', σ.step e = some σ' → σ'.owner = .aborted .lateDispatch ∨
        (InDestructor σ' ∨ σ'.owner = .returned) ∧ σ'.remaining < σ.remaining) := by
  obtain ⟨hbooked, hcontrol⟩ := reachable_booked_controlled hn h
  refine ⟨fun howner => ?_, hbooked.tickets_nodup, ?_, fun hin => ⟨hcontrol.progress hin, ?_⟩⟩
  · have hphase := hcontrol.phase
    simp only [PhaseOk, howner] at hphase
    refine ⟨hbooked.calls_perm hphase.2.1 hphase.2.2, fun c hc => ?_⟩
    have htaken : c ∈ σ.taken := (hbooked.mem_taken c).2 (.inl hc)
    exact hbooked.tasks c.2 (List.mem_append_right _ (List.mem_map_of_mem htaken))
  · rintro ⟨hqueue, hkill, hasleep⟩
    obtain ⟨i, hactive⟩ := hcontrol.alert hkill hqueue
    have hwaiting := hasleep i
    cases hw : σ.workers i <;> simp_all [Worker.isActive, Worker.isLive, Worker.isWaiting]
  · intro e σ' hstep
    obtain hlate | hstill | hless := hcontrol.decreases hin (moves_of_step hstep).2
    · exact .inl hlate
    · -- the check of the destructor does not fail
      have hphase := (reachable_booked_controlled hn (h.tail trivial hstep)).2.phase
      simp [PhaseOk, hstill] at hphase
    · exact .inr hless

/-- Two tasks, the second still queued when the destructor starts. -/
def twoTasks : List (PoolEvent 2 ℕ) :=
  [.born 0, .born 1, .checkBorn, .dispatch 7 {0}, .resume 0, .dispatch 8 {1}, .destroy, .resume 1,
    .call 0, .relock 0, .join, .join, .drain, .drain]

theorem threadPool_runs_two_tasks : ∃ σ : ThreadPool 2 ℕ, Reachable step (init 2 ℕ) σ ∧
    σ.owner = .returned ∧ σ.dispatched = [7, 8] ∧
    (σ.calls.map fun c => c.2.ticket).Perm (List.range σ.dispatched.length) := by
  have hrun : (runWhile step (fun _ _ => true) (init 2 ℕ) twoTasks).any
      (fun σ => σ.owner = .returned ∧ σ.dispatched = [7, 8]) = true := by decide +kernel
  obtain ⟨σ, hσ, hend⟩ := Option.any_eq_true _ _ |>.mp hrun
  obtain ⟨howner, hdispatched⟩ : σ.owner = .returned ∧ σ.dispatched = [7, 8] := by
    simpa using hend
  have hreach : Reachable step (init 2 ℕ) σ := reachable_runWhile twoTasks hσ
  have hmain := threadPool_runs_every_task_once (by decide) hreach
  exact ⟨σ, hreach, howner, hdispatched, (hmain.1 howner).1⟩

end Courses.HttpServer.ThreadPool
