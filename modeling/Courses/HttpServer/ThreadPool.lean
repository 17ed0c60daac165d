import Courses.Lib.Runs
import Mathlib.Data.Fintype.Card
import Mathlib.Data.List.Perm.Basic

/-!
# The thread pool

`ThreadPool` of `hw4`. Every section between taking and releasing `qlock_` is one step,
and so is the call of a task's function; `pthread_cond_signal` wakes one or more of the
waiting workers, chosen by the system, and a wait may end without a signal. A `Dispatch`
may come from any thread once the pool is constructed. Task functions return, and the
`pthread` calls succeed.
-/
namespace Courses.HttpServer

open Lib

/-- A queued task; the ticket, the number of the `Dispatch` call, tells two calls apart. -/
structure Queued (Task : Type*) where
  ticket : ℕ
  task : Task
  deriving DecidableEq

/-- Where a worker stands in `ThreadLoop`. -/
inductive Worker (Task : Type*) where
  /-- before its first section -/
  | created
  /-- in `pthread_cond_wait` -/
  | waiting
  /-- its wait has ended; it needs the lock to go on -/
  | woken
  /-- it has taken a task and released the lock -/
  | took (e : Queued Task)
  /-- it has called the function of its task; it needs the lock to go on -/
  | called
  | exited

/-- Which `Verify333` has failed. -/
inductive Failure where
  /-- `killthreads_ == false` in `Dispatch` -/
  | lateDispatch
  /-- `num_threads_running_ == 0` in the destructor -/
  | stillRunning
  deriving DecidableEq

/-- Where the owner of the pool stands. -/
inductive Owner where
  /-- in the loop of the constructor that waits for the workers -/
  | constructing
  | ready
  /-- in the destructor, at the `pthread_join` of worker `i` of `num` -/
  | joining (i num : ℕ)
  /-- in the destructor, behind the joins -/
  | draining
  | returned
  | aborted (why : Failure)
  deriving DecidableEq

/-- The pool with `n` workers, and the history of its calls; the destructor's own calls
are those of no worker. -/
structure ThreadPool (n : ℕ) (Task : Type*) where
  workQueue : List (Queued Task)
  killthreads : Bool
  numThreadsRunning : ℕ
  workers : Fin n → Worker Task
  owner : Owner
  dispatched : List Task
  taken : List (Option (Fin n) × Queued Task)
  calls : List (Option (Fin n) × Queued Task)

variable {n : ℕ} {Task : Type*}

namespace Worker

def isWaiting : Worker Task → Bool
  | .waiting => true
  | _ => false

/-- Counted in `num_threads_running_`. -/
def isLive : Worker Task → Bool
  | .created | .exited => false
  | _ => true

/-- The worker will take the lock and look at the queue. -/
def isActive : Worker Task → Bool
  | .woken | .took _ | .called => true
  | _ => false

def isExited : Worker Task → Bool
  | .exited => true
  | _ => false

end Worker

namespace ThreadPool

/-- After the first section of the constructor: the threads are created. -/
def init (n : ℕ) (Task : Type*) : ThreadPool n Task where
  workQueue := []
  killthreads := false
  numThreadsRunning := 0
  workers _ := .created
  owner := .constructing
  dispatched := []
  taken := []
  calls := []

variable (σ : ThreadPool n Task)

def setWorker (i : Fin n) (w : Worker Task) : ThreadPool n Task :=
  { σ with workers := Function.update σ.workers i w }

/-! ### `ThreadLoop` -/

/-- The end of `ThreadLoop`. -/
def exit (i : Fin n) : ThreadPool n Task :=
  { σ.setWorker i .exited with numThreadsRunning := σ.numThreadsRunning - 1 }

/-- The first section, up to `pthread_cond_wait`. -/
def born (i : Fin n) : ThreadPool n Task :=
  let σ := { σ with numThreadsRunning := σ.numThreadsRunning + 1 }
  if σ.killthreads then σ.exit i else σ.setWorker i .waiting

def take (i : Fin n) (e : Queued Task) (rest : List (Queued Task)) : ThreadPool n Task :=
  { σ.setWorker i (.took e) with workQueue := rest, taken := σ.taken ++ [(some i, e)] }

/-- From the test of the inner loop, with the lock held, to the next release of the lock. -/
def loopSection (i : Fin n) : ThreadPool n Task :=
  if σ.killthreads then σ.exit i
  else
    match σ.workQueue with
    | [] => σ.setWorker i .waiting
    | e :: rest => σ.take i e rest

def callTask (i : Fin n) (e : Queued Task) : ThreadPool n Task :=
  { σ.setWorker i .called with calls := σ.calls ++ [(some i, e)] }

/-! ### `Dispatch` -/

/-- `pthread_cond_signal` may wake the workers `woken`: some that wait, if any does. -/
def CanSignal (woken : Finset (Fin n)) : Prop :=
  (∀ i ∈ woken, (σ.workers i).isWaiting = true) ∧
    (woken = ∅ → ∀ i, (σ.workers i).isWaiting = false)

instance (woken : Finset (Fin n)) : Decidable (σ.CanSignal woken) :=
  inferInstanceAs (Decidable (_ ∧ _))

def wake (woken : Finset (Fin n)) : ThreadPool n Task :=
  { σ with workers := fun i => if i ∈ woken then .woken else σ.workers i }

def abort (why : Failure) : ThreadPool n Task := { σ with owner := .aborted why }

def dispatch (t : Task) (woken : Finset (Fin n)) : ThreadPool n Task :=
  if σ.killthreads then σ.abort .lateDispatch
  else
    { σ.wake woken with
      workQueue := σ.workQueue ++ [⟨σ.dispatched.length, t⟩]
      dispatched := σ.dispatched ++ [t] }

/-! ### The constructor and the destructor -/

/-- `while (num_threads_running_ != num_threads)`. -/
def checkBorn : ThreadPool n Task :=
  if σ.numThreadsRunning = n then { σ with owner := .ready } else σ

def broadcast : ThreadPool n Task :=
  { σ with workers := fun i => if (σ.workers i).isWaiting then .woken else σ.workers i }

/-- The loop over the joins from its test for `i`, to the next release of the lock. -/
def joinFrom (i num : ℕ) : ThreadPool n Task :=
  if i < num then { σ.broadcast with owner := .joining i num }
  else if σ.numThreadsRunning = 0 then { σ with owner := .draining }
  else σ.abort .stillRunning

def destroy : ThreadPool n Task :=
  { σ with killthreads := true }.joinFrom 0 σ.numThreadsRunning

/-- One round of the loop that issues the remaining work, or the end of it. -/
def drain : ThreadPool n Task :=
  match σ.workQueue with
  | [] => { σ with owner := .returned }
  | e :: rest =>
    { σ with workQueue := rest, taken := σ.taken ++ [(none, e)], calls := σ.calls ++ [(none, e)] }

end ThreadPool

/-! ### Steps -/

/-- What can happen next. -/
inductive PoolEvent (n : ℕ) (Task : Type*) where
  | born (i : Fin n)
  /-- a wait ends without a signal -/
  | spurious (i : Fin n)
  /-- a woken worker gets the lock -/
  | resume (i : Fin n)
  | call (i : Fin n)
  /-- the function of the task has returned and the worker gets the lock -/
  | relock (i : Fin n)
  | checkBorn
  | dispatch (t : Task) (woken : Finset (Fin n))
  | destroy
  /-- the `pthread_join` returns and the owner gets the lock -/
  | join
  | drain

namespace ThreadPool

def stepWorker (σ : ThreadPool n Task) : PoolEvent n Task → Option (ThreadPool n Task)
  | .born i =>
    match σ.workers i with
    | .created => some (σ.born i)
    | _ => none
  | .spurious i =>
    match σ.workers i with
    | .waiting => some (σ.setWorker i .woken)
    | _ => none
  | .resume i =>
    match σ.workers i with
    | .woken => some (σ.loopSection i)
    | _ => none
  | .call i =>
    match σ.workers i with
    | .took e => some (σ.callTask i e)
    | _ => none
  | .relock i =>
    match σ.workers i with
    | .called => some (σ.loopSection i)
    | _ => none
  | _ => none

def stepOwner (σ : ThreadPool n Task) : PoolEvent n Task → Option (ThreadPool n Task)
  | .checkBorn => if σ.owner = .constructing then some σ.checkBorn else none
  | .dispatch t woken =>
    if σ.owner ≠ .constructing ∧ σ.owner ≠ .returned ∧ σ.CanSignal woken then
      some (σ.dispatch t woken)
    else none
  | .destroy => if σ.owner = .ready then some σ.destroy else none
  | .join =>
    match σ.owner with
    | .joining i num =>
      if h : i < n then
        if (σ.workers ⟨i, h⟩).isExited then some (σ.joinFrom (i + 1) num) else none
      else none
    | _ => none
  | .drain => if σ.owner = .draining then some σ.drain else none
  | _ => none

/-- A failed `Verify333` ends the process. -/
def step (σ : ThreadPool n Task) (e : PoolEvent n Task) : Option (ThreadPool n Task) :=
  match σ.owner with
  | .aborted _ => none
  | _ => (σ.stepWorker e).or (σ.stepOwner e)

variable {σ σ' : ThreadPool n Task}

/-- All that a step can do. -/
inductive Moves (σ : ThreadPool n Task) : ThreadPool n Task → Prop where
  | born (i : Fin n) (h : σ.workers i = .created) : Moves σ (σ.born i)
  | spurious (i : Fin n) (h : σ.workers i = .waiting) : Moves σ (σ.setWorker i .woken)
  | loop (i : Fin n) (h : σ.workers i = .woken ∨ σ.workers i = .called) : Moves σ (σ.loopSection i)
  | call (i : Fin n) (e : Queued Task) (h : σ.workers i = .took e) : Moves σ (σ.callTask i e)
  | checkBorn (h : σ.owner = .constructing) : Moves σ σ.checkBorn
  | dispatch (t : Task) (woken : Finset (Fin n)) (hopen : σ.owner ≠ .constructing)
      (hlast : σ.owner ≠ .returned) (h : σ.CanSignal woken) : Moves σ (σ.dispatch t woken)
  | destroy (h : σ.owner = .ready) : Moves σ σ.destroy
  | join (i num : ℕ) (hi : i < n) (h : σ.owner = .joining i num)
      (hexit : σ.workers ⟨i, hi⟩ = .exited) : Moves σ (σ.joinFrom (i + 1) num)
  | drain (h : σ.owner = .draining) : Moves σ σ.drain

theorem moves_of_stepWorker {e : PoolEvent n Task} (h : σ.stepWorker e = some σ') :
    Moves σ σ' := by
  cases e with
  | born i =>
    cases hw : σ.workers i <;> simp only [stepWorker, hw, Option.some.injEq, reduceCtorEq] at h
    subst h
    exact .born i hw
  | spurious i =>
    cases hw : σ.workers i <;> simp only [stepWorker, hw, Option.some.injEq, reduceCtorEq] at h
    subst h
    exact .spurious i hw
  | resume i =>
    cases hw : σ.workers i <;> simp only [stepWorker, hw, Option.some.injEq, reduceCtorEq] at h
    subst h
    exact .loop i (.inl hw)
  | call i =>
    cases hw : σ.workers i <;> simp only [stepWorker, hw, Option.some.injEq, reduceCtorEq] at h
    subst h
    exact .call i _ hw
  | relock i =>
    cases hw : σ.workers i <;> simp only [stepWorker, hw, Option.some.injEq, reduceCtorEq] at h
    subst h
    exact .loop i (.inr hw)
  | checkBorn | dispatch _ _ | destroy | join | drain => cases h

theorem moves_of_stepOwner {e : PoolEvent n Task} (h : σ.stepOwner e = some σ') : Moves σ σ' := by
  cases e with
  | born i | spurious i | resume i | call i | relock i => cases h
  | checkBorn =>
    simp only [stepOwner, Option.ite_none_right_eq_some, Option.some.injEq] at h
    obtain ⟨howner, rfl⟩ := h
    exact .checkBorn howner
  | dispatch t woken =>
    simp only [stepOwner, Option.ite_none_right_eq_some, Option.some.injEq] at h
    obtain ⟨⟨hopen, hlast, hsignal⟩, rfl⟩ := h
    exact .dispatch t woken hopen hlast hsignal
  | destroy =>
    simp only [stepOwner, Option.ite_none_right_eq_some, Option.some.injEq] at h
    obtain ⟨howner, rfl⟩ := h
    exact .destroy howner
  | join =>
    cases howner : σ.owner <;> simp only [stepOwner, howner, reduceCtorEq] at h
    rename_i i num
    split at h
    · rename_i hi
      cases hw : σ.workers ⟨i, hi⟩ <;>
        simp only [hw, Worker.isExited, Bool.false_eq_true, if_false, if_true, reduceCtorEq,
          Option.some.injEq] at h
      subst h
      exact .join i num hi howner hw
    · cases h
  | drain =>
    simp only [stepOwner, Option.ite_none_right_eq_some, Option.some.injEq] at h
    obtain ⟨howner, rfl⟩ := h
    exact .drain howner

theorem moves_of_step {e : PoolEvent n Task} (h : σ.step e = some σ') :
    (∀ why, σ.owner ≠ .aborted why) ∧ Moves σ σ' := by
  unfold step at h
  split at h
  · cases h
  · rename_i hlive
    obtain hw | ⟨-, ho⟩ := Option.or_eq_some_iff.1 h
    · exact ⟨hlive, moves_of_stepWorker hw⟩
    · exact ⟨hlive, moves_of_stepOwner ho⟩

end ThreadPool

end Courses.HttpServer

/-!
# Where the tasks of the pool are

Every `Dispatch` gives out a ticket. The tickets are in the queue or with those who have
taken them, each in one place, through every step of the pool; so no task is taken twice.
-/
namespace Courses.HttpServer.ThreadPool

variable {n : ℕ} {Task : Type*} {σ σ' : ThreadPool n Task}

/-- The tickets given out are those queued and those taken, each once; and a task that has
been taken either has been called or is in the hands of the worker that took it. -/
structure Booked (σ : ThreadPool n Task) : Prop where
  tickets : ((σ.workQueue ++ σ.taken.map Prod.snd).map Queued.ticket).Perm
    (List.range σ.dispatched.length)
  tasks : ∀ e ∈ σ.workQueue ++ σ.taken.map Prod.snd, σ.dispatched[e.ticket]? = some e.task
  calls_nodup : σ.calls.Nodup
  mem_taken : ∀ c, c ∈ σ.taken ↔ c ∈ σ.calls ∨ ∃ i, c.1 = some i ∧ σ.workers i = .took c.2
  in_hand : ∀ i e, σ.workers i = .took e → (some i, e) ∉ σ.calls

theorem booked_init : Booked (init n Task) where
  tickets := List.Perm.refl _
  tasks := by simp [init]
  calls_nodup := List.nodup_nil
  mem_taken := by simp [init]
  in_hand := by simp [init]

theorem Booked.tickets_nodup (h : Booked σ) : (σ.taken.map fun c => c.2.ticket).Nodup := by
  have hnodup := h.tickets.nodup_iff.2 List.nodup_range
  rw [List.map_append, List.map_map] at hnodup
  exact hnodup.of_append_right

/-- A step that moves no task. -/
theorem Booked.of_same (h : Booked σ) (hqueue : σ'.workQueue = σ.workQueue)
    (hdispatched : σ'.dispatched = σ.dispatched) (htaken : σ'.taken = σ.taken)
    (hcalls : σ'.calls = σ.calls)
    (hworkers : ∀ i e, σ'.workers i = .took e ↔ σ.workers i = .took e) : Booked σ' := by
  obtain ⟨htickets, htasks, hnodup, hmem, hhand⟩ := h
  refine ⟨?_, ?_, ?_, ?_, ?_⟩
  · rw [hqueue, htaken, hdispatched]
    exact htickets
  · rw [hqueue, htaken, hdispatched]
    exact htasks
  · rw [hcalls]
    exact hnodup
  · intro c
    rw [htaken, hcalls, hmem]
    simp only [hworkers]
  · intro i e hw
    rw [hcalls]
    exact hhand i e ((hworkers i e).1 hw)

/-- What a worker is about to do changes without a task changing hands. -/
theorem took_setWorker {i : Fin n} {w : Worker Task} (hold : ∀ e, σ.workers i ≠ .took e)
    (hnew : ∀ e, w ≠ .took e) (j : Fin n) (e : Queued Task) :
    (σ.setWorker i w).workers j = .took e ↔ σ.workers j = .took e := by
  by_cases hj : j = i
  · subst hj
    simp [setWorker, hold, hnew]
  · simp [setWorker, hj]

theorem Booked.setWorker (h : Booked σ) {i : Fin n} {w : Worker Task}
    (hold : ∀ e, σ.workers i ≠ .took e) (hnew : ∀ e, w ≠ .took e) : Booked (σ.setWorker i w) :=
  h.of_same rfl rfl rfl rfl (took_setWorker hold hnew)

theorem Booked.not_mem_calls (h : Booked σ) {e : Queued Task} (hqueue : e ∈ σ.workQueue)
    (who : Option (Fin n)) : (who, e) ∉ σ.calls := by
  intro hcall
  have htaken : (who, e) ∈ σ.taken := (h.mem_taken _).2 (.inl hcall)
  have hnodup := h.tickets.nodup_iff.2 List.nodup_range
  rw [List.map_append] at hnodup
  refine (List.disjoint_of_nodup_append hnodup) (List.mem_map_of_mem hqueue) ?_
  exact List.mem_map_of_mem (List.mem_map_of_mem htaken)

/-- The front of the queue goes to the end of the list of taken tasks. -/
theorem front_to_taken (who : Option (Fin n)) {e : Queued Task} {rest : List (Queued Task)}
    (hqueue : σ.workQueue = e :: rest) :
    (rest ++ (σ.taken ++ [(who, e)]).map Prod.snd).Perm
      (σ.workQueue ++ σ.taken.map Prod.snd) := by
  rw [hqueue, List.map_append, ← List.append_assoc]
  exact List.perm_append_comm

theorem nodup_append_new {c : Option (Fin n) × Queued Task} (h : σ.calls.Nodup)
    (hnew : c ∉ σ.calls) : (σ.calls ++ [c]).Nodup := by
  rw [← List.concat_eq_append]
  exact h.concat hnew

theorem booked_take (h : Booked σ) {i : Fin n} {e : Queued Task} {rest : List (Queued Task)}
    (hqueue : σ.workQueue = e :: rest) (hold : ∀ e, σ.workers i ≠ .took e) :
    Booked (σ.take i e rest) := by
  have hperm := front_to_taken (some i) hqueue
  refine ⟨(hperm.map _).trans h.tickets, fun x hx => h.tasks x (hperm.mem_iff.1 hx), h.calls_nodup,
    fun c => ?_, fun j x hw => ?_⟩
  · have hmem := h.mem_taken c
    simp only [take, ThreadPool.setWorker, List.mem_append, List.mem_singleton, hmem]
    constructor
    · rintro ((hc | ⟨j, hj, hw⟩) | rfl)
      · exact .inl hc
      · have hne : j ≠ i := fun heq => hold c.2 (heq ▸ hw)
        exact .inr ⟨j, hj, by rw [Function.update_of_ne hne, hw]⟩
      · exact .inr ⟨i, rfl, by rw [Function.update_self]⟩
    · rintro (hc | ⟨j, hj, hw⟩)
      · exact .inl (.inl hc)
      · by_cases hji : j = i
        · subst hji
          rw [Function.update_self] at hw
          exact .inr (Prod.ext hj (Worker.took.inj hw).symm)
        · rw [Function.update_of_ne hji] at hw
          exact .inl (.inr ⟨j, hj, hw⟩)
  · by_cases hji : j = i
    · subst hji
      simp only [take, ThreadPool.setWorker, Function.update_self] at hw
      cases hw
      exact h.not_mem_calls (by rw [hqueue]; exact List.mem_cons_self) (some j)
    · simp only [take, ThreadPool.setWorker, Function.update_of_ne hji] at hw
      exact h.in_hand j x hw

theorem booked_callTask (h : Booked σ) {i : Fin n} {e : Queued Task}
    (hold : σ.workers i = .took e) : Booked (σ.callTask i e) := by
  refine ⟨h.tickets, h.tasks, ?_, fun c => ?_, fun j x hw => ?_⟩
  · exact nodup_append_new h.calls_nodup (h.in_hand i e hold)
  · have hmem := h.mem_taken c
    simp only [callTask, ThreadPool.setWorker, List.mem_append, List.mem_singleton, hmem]
    constructor
    · rintro (hc | ⟨j, hj, hw⟩)
      · exact .inl (.inl hc)
      · by_cases hji : j = i
        · subst hji
          rw [hold] at hw
          exact .inl (.inr (Prod.ext hj (Worker.took.inj hw).symm))
        · exact .inr ⟨j, hj, by rw [Function.update_of_ne hji, hw]⟩
    · rintro ((hc | rfl) | ⟨j, hj, hw⟩)
      · exact .inl hc
      · exact .inr ⟨i, rfl, hold⟩
      · by_cases hji : j = i
        · subst hji
          rw [Function.update_self] at hw
          cases hw
        · rw [Function.update_of_ne hji] at hw
          exact .inr ⟨j, hj, hw⟩
  · by_cases hji : j = i
    · subst hji
      simp only [callTask, ThreadPool.setWorker, Function.update_self] at hw
      cases hw
    · simp only [callTask, ThreadPool.setWorker, Function.update_of_ne hji] at hw
      simp only [callTask, List.mem_append, List.mem_singleton, not_or]
      exact ⟨h.in_hand j x hw, fun heq => hji (Option.some.inj (Prod.ext_iff.1 heq).1)⟩

theorem booked_drain (h : Booked σ) : Booked σ.drain := by
  unfold drain
  split
  · exact h.of_same rfl rfl rfl rfl fun _ _ => Iff.rfl
  · rename_i e rest hqueue
    have hperm := front_to_taken none hqueue
    have hnew := h.not_mem_calls (by rw [hqueue]; exact List.mem_cons_self) none
    refine ⟨(hperm.map _).trans h.tickets, fun x hx => h.tasks x (hperm.mem_iff.1 hx),
      nodup_append_new h.calls_nodup hnew, fun c => ?_, fun i x hw => ?_⟩
    · have hmem := h.mem_taken c
      simp only [List.mem_append, List.mem_singleton, hmem]
      exact or_right_comm
    · simp only [List.mem_append, List.mem_singleton, not_or]
      exact ⟨h.in_hand i x hw, fun heq => by cases (Prod.ext_iff.1 heq).1⟩

theorem took_wake {woken : Finset (Fin n)} (hsignal : σ.CanSignal woken) (i : Fin n)
    (e : Queued Task) : (σ.wake woken).workers i = .took e ↔ σ.workers i = .took e := by
  by_cases hi : i ∈ woken
  · have hwaiting := hsignal.1 i hi
    cases hw : σ.workers i <;> simp_all [wake, Worker.isWaiting]
  · simp [wake, hi]

theorem booked_dispatch (h : Booked σ) {t : Task} {woken : Finset (Fin n)}
    (hsignal : σ.CanSignal woken) : Booked (σ.dispatch t woken) := by
  unfold dispatch
  split
  · exact h.of_same rfl rfl rfl rfl fun _ _ => Iff.rfl
  · have hwake : Booked (σ.wake woken) := h.of_same rfl rfl rfl rfl (took_wake hsignal)
    refine ⟨?_, fun e he => ?_, hwake.calls_nodup, hwake.mem_taken, hwake.in_hand⟩
    · have hlast (e : Queued Task) : (σ.workQueue ++ [e] ++ σ.taken.map Prod.snd).Perm
          (σ.workQueue ++ σ.taken.map Prod.snd ++ [e]) := by
        rw [List.append_assoc, List.append_assoc]
        exact List.perm_append_comm.append_left σ.workQueue
      refine ((hlast ⟨σ.dispatched.length, t⟩).map _).trans ?_
      rw [List.map_append, List.length_append, List.length_singleton, List.range_succ]
      exact h.tickets.append_right _
    · have hold (he : e ∈ σ.workQueue ++ σ.taken.map Prod.snd) :
          (σ.dispatched ++ [t])[e.ticket]? = some e.task := by
        have hget := h.tasks e he
        obtain ⟨hlt, -⟩ := List.getElem?_eq_some_iff.1 hget
        rw [List.getElem?_append_left hlt, hget]
      simp only [List.mem_append, List.mem_singleton] at he
      obtain (he | rfl) | he := he
      · exact hold (List.mem_append_left _ he)
      · simp
      · exact hold (List.mem_append_right _ he)

theorem took_broadcast (i : Fin n) (e : Queued Task) :
    σ.broadcast.workers i = .took e ↔ σ.workers i = .took e := by
  cases hw : σ.workers i <;> simp [broadcast, hw, Worker.isWaiting]

theorem booked_joinFrom (h : Booked σ) (i num : ℕ) : Booked (σ.joinFrom i num) := by
  unfold joinFrom
  split
  · exact h.of_same rfl rfl rfl rfl took_broadcast
  · split <;> exact h.of_same rfl rfl rfl rfl fun _ _ => Iff.rfl

theorem Booked.moves (h : Booked σ) (hmove : Moves σ σ') : Booked σ' := by
  have hexit (i : Fin n) (hold : ∀ e, σ.workers i ≠ .took e) : Booked (σ.exit i) :=
    (h.setWorker hold (fun _ => by simp)).of_same rfl rfl rfl rfl fun _ _ => Iff.rfl
  cases hmove with
  | born i hw =>
    have hold : ∀ e, σ.workers i ≠ .took e := by simp [hw]
    simp only [born]
    split
    · exact (hexit i hold).of_same rfl rfl rfl rfl fun _ _ => Iff.rfl
    · exact (h.setWorker hold (by simp)).of_same rfl rfl rfl rfl fun _ _ => Iff.rfl
  | spurious i hw => exact h.setWorker (by simp [hw]) (by simp)
  | loop i hw =>
    have hold : ∀ e, σ.workers i ≠ .took e := by
      intro e
      obtain hw | hw := hw <;> simp [hw]
    unfold loopSection
    split
    · exact hexit i hold
    · split
      · exact h.setWorker hold (by simp)
      · rename_i e rest hqueue
        exact booked_take h hqueue hold
  | call i e hw => exact booked_callTask h hw
  | checkBorn _ =>
    unfold checkBorn
    split
    · exact h.of_same rfl rfl rfl rfl fun _ _ => Iff.rfl
    · exact h
  | dispatch t woken _ _ hsignal => exact booked_dispatch h hsignal
  | destroy _ =>
    have hkill : Booked { σ with killthreads := true } :=
      h.of_same rfl rfl rfl rfl fun _ _ => Iff.rfl
    exact booked_joinFrom hkill _ _
  | join i num _ _ _ => exact booked_joinFrom h _ _
  | drain _ => exact booked_drain h

end Courses.HttpServer.ThreadPool
