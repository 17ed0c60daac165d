import Courses.Lib.Runs
import Courses.MapReduce.Tasks

/-!
# Scheduling a job on workers

`schedule.go`, `master.go` and `worker.go`. A phase spawns one goroutine per task. It
builds the arguments of the task, waits for an idle worker on `registerChannel`, calls
`Worker.DoTask`, and starts over with another worker where the call fails; when the call
succeeds it signals on `wt`, and the master returns after one signal per task.

The goroutines, the workers and the registrations take their steps in any order. The
channel is unbuffered: a worker offered on it is a blocked sender. A worker changes files
one call at a time while its `DoTask` is outstanding. A call over a local socket fails
only when the worker cannot be reached or its process is gone, so a failed call ends what
the worker was doing, at any point; the worker is not offered again.
-/
namespace Courses.MapReduce

open Courses.Lib

inductive JobPhase where
  | map
  | reduce
  deriving Repr, DecidableEq

/-- A worker, by the address under which it registers. -/
abbrev Worker := GoString

structure DoTaskArgs where
  jobName : GoString
  file : GoString
  phase : JobPhase
  taskNumber : ℕ
  numOtherPhase : ℕ
  deriving Repr, DecidableEq

/-- The fields of `Master` that `run` sets, with what the workers are given. -/
structure Job where
  json : Json
  jobName : GoString
  files : List GoString
  nReduce : ℕ
  mapF : MapF
  reduceF : ReduceF

namespace Job

def ntasks (job : Job) : JobPhase → ℕ
  | .map => job.files.length
  | .reduce => job.nReduce

/-- The number of inputs (for reduce) or outputs (for map). -/
def nios (job : Job) : JobPhase → ℕ
  | .map => job.nReduce
  | .reduce => job.files.length

/-- The arguments of a task; `none` where `mr.files[taskNum]` is out of range. -/
def dtarg (job : Job) (phase : JobPhase) (taskNum : ℕ) : Option DoTaskArgs :=
  (job.files[taskNum]?).map fun file => ⟨job.jobName, file, phase, taskNum, job.nios phase⟩

/-- `Worker.DoTask`, run to its end with nothing in between. -/
def doTask (job : Job) (arg : DoTaskArgs) : GoM Unit :=
  match arg.phase with
  | .map => doMap job.json arg.jobName arg.taskNumber arg.file arg.numOtherPhase job.mapF
  | .reduce => doReduce job.json arg.jobName arg.taskNumber arg.numOtherPhase job.reduceF

end Job

/-- What a worker has left to do: calls on files, and whether it then returns; otherwise
it panics. -/
structure Work where
  ops : List FileOp
  returns : Bool
  deriving Repr, DecidableEq

instance (nReduce : ℕ) (kvs : List KeyValue) : Decidable (Splits nReduce kvs) :=
  inferInstanceAs (Decidable (_ ∨ _))

/-- What `doMap` does once it has read its input. -/
def mapWork (json : Json) (arg : DoTaskArgs) (mapF : MapF) (fs : FileSystem) : Work :=
  match fs arg.file with
  | none => ⟨[], false⟩
  | some data =>
    if Splits arg.numOtherPhase (mapF arg.file data) then
      ⟨mapOps json arg.jobName arg.taskNumber arg.numOtherPhase (mapF arg.file data), true⟩
    else
      ⟨mapOps json arg.jobName arg.taskNumber arg.numOtherPhase [], false⟩

/-- What `doReduce` does once it has read its inputs. -/
def reduceWork (json : Json) (arg : DoTaskArgs) (reduceF : ReduceF) (fs : FileSystem) : Work :=
  match readGroups json arg.jobName arg.taskNumber arg.numOtherPhase 0 ∅ fs with
  | none => ⟨[], false⟩
  | some (kvs, _) =>
    ⟨reduceOps json arg.jobName arg.taskNumber ((sortStrings kvs.keys).map fun key =>
      ⟨key, reduceF key ((kvs.lookup key).getD [])⟩), true⟩

namespace Job

def work (job : Job) (arg : DoTaskArgs) (fs : FileSystem) : Work :=
  match arg.phase with
  | .map => mapWork job.json arg job.mapF fs
  | .reduce => reduceWork job.json arg job.reduceF fs

end Job

/-- A goroutine of `schedule`. -/
inductive Goroutine where
  /-- Spawned, with its arguments still to be built. -/
  | ready
  /-- At the receive from `registerChannel`. -/
  | waiting (arg : DoTaskArgs)
  /-- Inside `call`; the worker has read its inputs once `work` is there. -/
  | calling (arg : DoTaskArgs) (worker : Worker) (work : Option Work)
  /-- After a successful call, with the signal still to be sent. -/
  | served
  | done
  deriving Repr, DecidableEq

inductive Stage where
  | schedule (phase : JobPhase)
  | merge
  | done
  /-- An index was out of range. -/
  | crashed
  deriving Repr, DecidableEq

structure System where
  /-- `mr.workers`. -/
  workers : List Worker
  /-- The goroutines blocked at `mr.registerChannel <- worker`. -/
  senders : List Worker
  stage : Stage
  goroutines : List Goroutine
  /-- The signals in `wt`. -/
  tokens : ℕ
  /-- The signals received. -/
  received : ℕ
  fs : FileSystem
  /-- The tasks that have had a successful reply. -/
  replies : List (JobPhase × ℕ)

def System.start (fs : FileSystem) : System :=
  ⟨[], [], .schedule .map, [], 0, 0, fs, []⟩

inductive Event where
  | register (worker : Worker)
  | spawn
  | start (task : ℕ)
  | take (task : ℕ) (worker : Worker)
  | read (task : ℕ)
  | write (task : ℕ)
  | reply (task : ℕ)
  | fail (task : ℕ)
  | signal (task : ℕ)
  | receive
  | finish
  | merge
  deriving Repr, DecidableEq

/-- The stage after the schedule of a phase. -/
def JobPhase.next : JobPhase → Stage
  | .map => .schedule .reduce
  | .reduce => .merge

/-- The steps of `schedule` in a phase. -/
def scheduleStep (job : Job) (phase : JobPhase) (s : System) : Event → Option System
  | .spawn =>
    if s.goroutines.length < job.ntasks phase then
      some { s with goroutines := s.goroutines ++ [.ready] }
    else
      none
  | .start i =>
    match s.goroutines[i]? with
    | some .ready =>
      match job.dtarg phase i with
      | none => some { s with stage := .crashed }
      | some arg => some { s with goroutines := s.goroutines.set i (.waiting arg) }
    | _ => none
  | .take i w =>
    match s.goroutines[i]? with
    | some (.waiting arg) =>
      if w ∈ s.senders then
        some { s with
          senders := s.senders.erase w
          goroutines := s.goroutines.set i (.calling arg w none) }
      else
        none
    | _ => none
  | .read i =>
    match s.goroutines[i]? with
    | some (.calling arg w none) =>
      some { s with goroutines := s.goroutines.set i (.calling arg w (some (job.work arg s.fs))) }
    | _ => none
  | .write i =>
    match s.goroutines[i]? with
    | some (.calling arg w (some ⟨op :: ops, returns⟩)) =>
      some { s with
        fs := op.apply s.fs
        goroutines := s.goroutines.set i (.calling arg w (some ⟨ops, returns⟩)) }
    | _ => none
  | .reply i =>
    match s.goroutines[i]? with
    | some (.calling _ w (some ⟨[], true⟩)) =>
      some { s with
        senders := s.senders ++ [w]
        goroutines := s.goroutines.set i .served
        replies := s.replies ++ [(phase, i)] }
    | _ => none
  | .fail i =>
    match s.goroutines[i]? with
    | some (.calling arg _ _) =>
      some { s with goroutines := s.goroutines.set i (.waiting arg) }
    | _ => none
  | .signal i =>
    match s.goroutines[i]? with
    | some .served =>
      some { s with tokens := s.tokens + 1, goroutines := s.goroutines.set i .done }
    | _ => none
  | .receive =>
    if s.goroutines.length = job.ntasks phase ∧ s.received < job.ntasks phase ∧ 0 < s.tokens then
      some { s with tokens := s.tokens - 1, received := s.received + 1 }
    else
      none
  | .finish =>
    if s.goroutines.length = job.ntasks phase ∧ s.received = job.ntasks phase then
      some { s with stage := phase.next, goroutines := [], tokens := 0, received := 0 }
    else
      none
  | _ => none

/-- A step of the system. Workers register at any time. -/
def step (job : Job) (s : System) : Event → Option System
  | .register w => some { s with workers := s.workers ++ [w], senders := s.senders ++ [w] }
  | .merge =>
    if s.stage = .merge then
      (merge job.json job.jobName job.nReduce s.fs).map fun p => { s with stage := .done, fs := p.2 }
    else
      none
  | e =>
    match s.stage with
    | .schedule phase => scheduleStep job phase s e
    | _ => none

end Courses.MapReduce

/-!
# What a phase leaves behind

Each task of a phase owns some files: it creates them before it writes them, reads none
that a task of the same phase owns, and changes no other. So the files of a task that ran
to its end do not depend on what was done before or beside it, and any order of the tasks,
with any failed attempts in between, leaves what one task after the other leaves.
-/
namespace Courses.MapReduce

/-- No input has the name of a file that a map task creates. -/
def Job.InputsApart (job : Job) : Prop :=
  ∀ file ∈ job.files, ∀ m r, file ≠ reduceName job.jobName m r

namespace Job

variable {job : Job} {phase : JobPhase} {arg : DoTaskArgs} {i j : ℕ} {name : GoString}
  {fs fs' fs₀ : FileSystem}

/-! ## The files of a task -/

/-- The files that a task writes. -/
def Owns (job : Job) (phase : JobPhase) (i : ℕ) (name : GoString) : Prop :=
  match phase with
  | .map => ∃ r < job.nReduce, name = reduceName job.jobName i r
  | .reduce => name = mergeName job.jobName i

theorem owns_unique (hi : job.Owns phase i name) (hj : job.Owns phase j name) : i = j := by
  cases phase with
  | map =>
    obtain ⟨r, -, rfl⟩ := hi
    obtain ⟨r', -, hname⟩ := hj
    exact (reduceName_injective hname).1
  | reduce => exact mergeName_injective (hi.symm.trans hj)

theorem dtarg_eq_some (h : job.dtarg phase i = some arg) :
    ∃ file, job.files[i]? = some file ∧ arg = ⟨job.jobName, file, phase, i, job.nios phase⟩ := by
  rw [dtarg, Option.map_eq_some_iff] at h
  obtain ⟨file, hfile, rfl⟩ := h
  exact ⟨file, hfile, rfl⟩

theorem dtarg_isSome (phase : JobPhase) (h : i < job.files.length) :
    ∃ arg, job.dtarg phase i = some arg := by
  rw [dtarg, List.getElem?_eq_getElem h]
  exact ⟨_, rfl⟩

theorem target_mapOps_nil {json : Json} {jobName : GoString} {m nReduce : ℕ} {op : FileOp}
    (hop : op ∈ mapOps json jobName m nReduce []) :
    ∃ r < nReduce, op.target = reduceName jobName m r :=
  target_mapOps (Or.inr rfl) hop

theorem target_work (h : job.dtarg phase i = some arg) {op : FileOp}
    (hop : op ∈ (job.work arg fs).ops) : job.Owns phase i op.target := by
  obtain ⟨file, -, rfl⟩ := dtarg_eq_some h
  cases phase with
  | map =>
    rw [work] at hop
    simp only [mapWork] at hop
    split at hop
    · cases hop
    · split at hop
      · next hsplit => exact target_mapOps hsplit hop
      · exact target_mapOps_nil hop
  | reduce =>
    rw [work] at hop
    simp only [reduceWork] at hop
    split at hop
    · cases hop
    · exact target_reduceOps hop

/-- A task that returns has created all its files, so what they held before is gone. -/
theorem work_settles (h : job.dtarg phase i = some arg) (hreturns : (job.work arg fs).returns = true)
    (hname : job.Owns phase i name) (g g' : FileSystem) :
    FileOp.applyAll g (job.work arg fs).ops name =
      FileOp.applyAll g' (job.work arg fs).ops name := by
  obtain ⟨file, -, rfl⟩ := dtarg_eq_some h
  cases phase with
  | map =>
    obtain ⟨r, hr, rfl⟩ := hname
    rw [work] at hreturns ⊢
    simp only [mapWork] at hreturns ⊢
    split at hreturns
    · cases hreturns
    · split at hreturns
      · next hsplit =>
        simp only [if_pos hsplit]
        change FileOp.applyAll g (mapOps job.json job.jobName i job.nReduce _) _ =
          FileOp.applyAll g' (mapOps job.json job.jobName i job.nReduce _) _
        rw [applyAll_mapOps _ hr, applyAll_mapOps _ hr]
      · cases hreturns
  | reduce =>
    cases hname
    rw [work] at hreturns ⊢
    simp only [reduceWork] at hreturns ⊢
    split at hreturns
    · cases hreturns
    · dsimp only
      rw [applyAll_reduceOps, applyAll_reduceOps]

/-! ## What a task reads -/

theorem readGroups_congr (json : Json) {jobName : GoString} {r : ℕ} (left i : ℕ) (g : Groups)
    (h : ∀ m, fs (reduceName jobName m r) = fs' (reduceName jobName m r)) :
    (readGroups json jobName r left i g fs).map Prod.fst =
      (readGroups json jobName r left i g fs').map Prod.fst := by
  induction left generalizing i g with
  | zero => rfl
  | succ left ih =>
    change (((fs (reduceName jobName i r)).map (·, fs)).bind _).map _ =
      (((fs' (reduceName jobName i r)).map (·, fs')).bind _).map _
    rw [h i]
    cases fs' (reduceName jobName i r) with
    | none => rfl
    | some stream =>
      simp only [Option.map_some, Option.bind_some]
      cases decodeGroups json (stream.length + 1) stream g with
      | none => rfl
      | some kvs => exact ih (i + 1) kvs

theorem readGroups_fs {json : Json} {jobName : GoString} {r : ℕ} (left i : ℕ) (g : Groups)
    (fs : FileSystem) (p : Groups × FileSystem)
    (h : readGroups json jobName r left i g fs = some p) : p.2 = fs := by
  induction left generalizing i g with
  | zero =>
    cases h
    rfl
  | succ left ih =>
    change ((fs (reduceName jobName i r)).map (·, fs)).bind _ = _ at h
    cases hstream : fs (reduceName jobName i r) with
    | none =>
      rw [hstream] at h
      cases h
    | some stream =>
      rw [hstream, Option.map_some, Option.bind_some] at h
      cases hdecode : decodeGroups json (stream.length + 1) stream g with
      | none =>
        simp only [hdecode] at h
        cases h
      | some kvs =>
        simp only [hdecode] at h
        exact ih (i + 1) kvs h

theorem reduceWork_congr {json : Json} {reduceF : ReduceF}
    (h : ∀ m, fs (reduceName arg.jobName m arg.taskNumber) =
      fs' (reduceName arg.jobName m arg.taskNumber)) :
    reduceWork json arg reduceF fs = reduceWork json arg reduceF fs' := by
  have hread := readGroups_congr json arg.numOtherPhase 0 ∅ h
  rw [reduceWork, reduceWork]
  cases hfs : readGroups json arg.jobName arg.taskNumber arg.numOtherPhase 0 ∅ fs with
  | none =>
    rw [hfs, Option.map_none, eq_comm, Option.map_eq_none_iff] at hread
    rw [hread]
  | some p =>
    rw [hfs, Option.map_some, eq_comm, Option.map_eq_some_iff] at hread
    obtain ⟨p', hp', heq⟩ := hread
    rw [hp']
    dsimp only
    rw [heq]

/-- The tasks of a phase read no file that one of them owns. -/
theorem work_congr (hinputs : job.InputsApart) (h : job.dtarg phase i = some arg)
    (hfs : ∀ name, (∀ j < job.ntasks phase, ¬ job.Owns phase j name) → fs name = fs' name) :
    job.work arg fs = job.work arg fs' := by
  obtain ⟨file, hfile, rfl⟩ := dtarg_eq_some h
  cases phase with
  | map =>
    have hread : fs file = fs' file := by
      apply hfs
      rintro j - ⟨r, -, hname⟩
      exact hinputs file (List.mem_of_getElem? hfile) j r hname
    simp only [work, mapWork, hread]
  | reduce =>
    rw [work, work]
    apply reduceWork_congr
    intro m
    apply hfs
    intro j _ hname
    exact reduceName_ne_mergeName _ _ _ _ hname

/-! ## One task after the other -/

theorem doTask_eq (h : job.dtarg phase i = some arg) (fs : FileSystem) :
    job.doTask arg fs = if (job.work arg fs).returns
      then some ((), FileOp.applyAll fs (job.work arg fs).ops) else none := by
  obtain ⟨file, -, rfl⟩ := dtarg_eq_some h
  cases phase with
  | map =>
    simp only [doTask, work, mapWork]
    cases hfile : fs file with
    | none =>
      change ((fs file).map (·, fs)).bind _ = _
      rw [hfile]
      rfl
    | some data =>
      dsimp only
      split_ifs with hsplit hreturns hreturns
      · exact doMap_eq hfile hsplit
      · exact absurd rfl hreturns
      · cases hreturns
      · exact doMap_panics hfile hsplit
  | reduce =>
    rw [doTask]
    change doReduce job.json job.jobName i (job.nios .reduce) job.reduceF fs = _
    rw [doReduce]
    change (readGroups job.json job.jobName i (job.nios .reduce) 0 ∅ fs).bind _ = _
    cases hread : readGroups job.json job.jobName i (job.nios .reduce) 0 ∅ fs with
    | none =>
      have hwork : job.work ⟨job.jobName, file, .reduce, i, job.nios .reduce⟩ fs = ⟨[], false⟩ := by
        rw [work]
        simp only [reduceWork, hread]
      rw [hwork]
      rfl
    | some p =>
      obtain ⟨kvs, fs₁⟩ := p
      obtain rfl : fs₁ = fs := readGroups_fs _ _ _ _ _ hread
      have hwork : job.work ⟨job.jobName, file, .reduce, i, job.nios .reduce⟩ fs₁ =
          ⟨reduceOps job.json job.jobName i ((sortStrings kvs.keys).map fun key =>
            ⟨key, job.reduceF key ((kvs.lookup key).getD [])⟩), true⟩ := by
        rw [work]
        simp only [reduceWork, hread]
      rw [hwork, if_pos rfl, Option.bind_some, reduceOps, FileOp.applyAll_cons, List.map_map]
      exact encodeGroups_eq kvs (sortStrings kvs.keys) _

/-- Task `i` has returned, and its files are as it leaves them. -/
def Settled (job : Job) (phase : JobPhase) (fs₀ fs : FileSystem) (i : ℕ) : Prop :=
  ∃ arg, job.dtarg phase i = some arg ∧ (job.work arg fs₀).returns = true ∧
    ∀ name, job.Owns phase i name → fs name = FileOp.applyAll fs₀ (job.work arg fs₀).ops name

/-- The first `k` tasks of a phase that began with `fs₀` are settled, and nothing else has
changed. -/
structure Upto (job : Job) (phase : JobPhase) (fs₀ : FileSystem) (k : ℕ) (fs : FileSystem) :
    Prop where
  settled : ∀ i < k, job.Settled phase fs₀ fs i
  others : ∀ name, (∀ i < k, ¬ job.Owns phase i name) → fs name = fs₀ name

theorem Upto.unique {k : ℕ} (h : job.Upto phase fs₀ k fs) (h' : job.Upto phase fs₀ k fs') :
    fs = fs' := by
  funext name
  by_cases howned : ∃ i < k, job.Owns phase i name
  · obtain ⟨i, hi, hname⟩ := howned
    obtain ⟨arg, harg, -, hfs⟩ := h.settled i hi
    obtain ⟨arg', harg', -, hfs'⟩ := h'.settled i hi
    obtain rfl : arg = arg' := Option.some.inj (harg.symm.trans harg')
    rw [hfs name hname, hfs' name hname]
  · push Not at howned
    rw [h.others name howned, h'.others name howned]

theorem upto_zero (job : Job) (phase : JobPhase) (fs : FileSystem) : job.Upto phase fs 0 fs :=
  ⟨fun i hi => absurd hi (Nat.not_lt_zero i), fun _ _ => rfl⟩

/-- The next task, after those before it. -/
theorem Upto.doTask {k : ℕ} (hinputs : job.InputsApart) (h : job.Upto phase fs₀ k fs)
    (hk : k < job.ntasks phase) (harg : job.dtarg phase k = some arg)
    (hreturns : (job.work arg fs₀).returns = true) :
    ∃ fs', job.doTask arg fs = some ((), fs') ∧ job.Upto phase fs₀ (k + 1) fs' := by
  have hwork : job.work arg fs = job.work arg fs₀ := by
    apply work_congr hinputs harg
    intro name hname
    exact h.others name fun i hi => hname i (by omega)
  refine ⟨FileOp.applyAll fs (job.work arg fs₀).ops, ?_, ?_, ?_⟩
  · rw [doTask_eq harg, hwork, if_pos hreturns]
  · intro i hi
    rcases Nat.eq_or_lt_of_le (Nat.le_of_lt_succ hi) with rfl | hlt
    · exact ⟨arg, harg, hreturns, fun name hname => work_settles harg hreturns hname _ _⟩
    · obtain ⟨arg', harg', hreturns', hfs⟩ := h.settled i hlt
      refine ⟨arg', harg', hreturns', fun name hname => ?_⟩
      rw [FileOp.applyAll_ne, hfs name hname]
      intro op hop heq
      have := owns_unique hname (heq ▸ target_work harg hop)
      omega
  · intro name hname
    rw [FileOp.applyAll_ne, h.others name fun i hi => hname i (by omega)]
    intro op hop heq
    exact hname k (Nat.lt_succ_self k) (heq ▸ target_work harg hop)

/-- A phase of `Sequential`. -/
def runPhase (job : Job) : JobPhase → GoM Unit
  | .map => mapPhase job.json job.jobName job.nReduce job.mapF 0 job.files
  | .reduce => reducePhase job.json job.jobName job.files.length job.reduceF job.nReduce 0

/-- Every task of the phase is in range and returns. -/
def AllReturn (job : Job) (phase : JobPhase) (fs₀ : FileSystem) : Prop :=
  ∀ i < job.ntasks phase, ∃ arg, job.dtarg phase i = some arg ∧ (job.work arg fs₀).returns = true

theorem mapPhase_upto (hinputs : job.InputsApart) (hall : job.AllReturn .map fs₀)
    (files : List GoString) {k : ℕ} (hfiles : job.files.drop k = files)
    (h : job.Upto .map fs₀ k fs) :
    ∃ fs', mapPhase job.json job.jobName job.nReduce job.mapF k files fs = some ((), fs') ∧
      job.Upto .map fs₀ (k + files.length) fs' := by
  induction files generalizing k fs with
  | nil => exact ⟨fs, rfl, h⟩
  | cons file files ih =>
    have hget : job.files[k]? = some file := by
      have := congrArg List.head? hfiles
      rwa [List.head?_drop, List.head?_cons] at this
    have hdrop : job.files.drop (k + 1) = files := by
      rw [← List.tail_drop, hfiles, List.tail_cons]
    have hk : k < job.ntasks .map := (List.getElem?_eq_some_iff.mp hget).1
    obtain ⟨arg, harg, hreturns⟩ := hall k hk
    obtain ⟨fs₁, htask, hupto⟩ := h.doTask hinputs hk harg hreturns
    obtain ⟨fs', hrun, hupto'⟩ := ih hdrop hupto
    obtain ⟨file', hfile', rfl⟩ := dtarg_eq_some harg
    obtain rfl : file' = file := Option.some.inj (hfile'.symm.trans hget)
    refine ⟨fs', ?_, by rwa [List.length_cons, ← Nat.add_assoc, Nat.add_right_comm]⟩
    change (doMap job.json job.jobName k file' job.nReduce job.mapF fs).bind _ = _
    rw [show doMap job.json job.jobName k file' job.nReduce job.mapF fs = some ((), fs₁) from htask]
    exact hrun

theorem reducePhase_upto (hinputs : job.InputsApart) (hall : job.AllReturn .reduce fs₀)
    (left : ℕ) {k : ℕ} (hk : k + left = job.nReduce) (h : job.Upto .reduce fs₀ k fs) :
    ∃ fs', reducePhase job.json job.jobName job.files.length job.reduceF left k fs =
      some ((), fs') ∧ job.Upto .reduce fs₀ (k + left) fs' := by
  induction left generalizing k fs with
  | zero => exact ⟨fs, rfl, h⟩
  | succ left ih =>
    have hlt : k < job.ntasks .reduce := by
      change k < job.nReduce
      omega
    obtain ⟨arg, harg, hreturns⟩ := hall k hlt
    obtain ⟨fs₁, htask, hupto⟩ := h.doTask hinputs hlt harg hreturns
    obtain ⟨fs', hrun, hupto'⟩ := ih (by omega) hupto
    obtain ⟨file', -, rfl⟩ := dtarg_eq_some harg
    refine ⟨fs', ?_, by rwa [Nat.add_right_comm] at hupto'⟩
    change (doReduce job.json job.jobName k job.files.length job.reduceF fs).bind _ = _
    rw [show doReduce job.json job.jobName k job.files.length job.reduceF fs = some ((), fs₁)
      from htask]
    exact hrun

/-- A phase in which every task is settled is what `Sequential` makes of it. -/
theorem Upto.runPhase (hinputs : job.InputsApart) (h : job.Upto phase fs₀ (job.ntasks phase) fs) :
    job.runPhase phase fs₀ = some ((), fs) := by
  have hall : job.AllReturn phase fs₀ := by
    intro i hi
    obtain ⟨arg, harg, hreturns, -⟩ := h.settled i hi
    exact ⟨arg, harg, hreturns⟩
  cases phase with
  | map =>
    obtain ⟨fs', hrun, hupto⟩ := mapPhase_upto hinputs hall job.files (k := 0) rfl
      (upto_zero job .map fs₀)
    rw [Nat.zero_add] at hupto
    rw [h.unique hupto]
    exact hrun
  | reduce =>
    obtain ⟨fs', hrun, hupto⟩ := reducePhase_upto hinputs hall job.nReduce (k := 0)
      (Nat.zero_add _) (upto_zero job .reduce fs₀)
    rw [Nat.zero_add] at hupto
    rw [h.unique hupto]
    exact hrun

end Job
end Courses.MapReduce
