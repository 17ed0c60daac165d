import Courses.MapReduce.Meaning
import Courses.MapReduce.Schedule

/-!
# Scheduled jobs and sequential jobs

The invariant of the scheduler: every goroutine is as far as its state says, the signals
sent are those of the goroutines that are done, and a worker is offered or called at most
once at any time. From it, in every run, a phase returns only after a successful reply for
each of its tasks, and a finished job has left the files of `Sequential`.
-/
namespace Courses.MapReduce

open Courses.Lib

variable {job : Job} {phase : JobPhase} {s s' : System} {fs fs' fs₀ : FileSystem} {i : ℕ}

/-! ## What a step does -/

/-- The moves of a phase, one for each way in which `scheduleStep` succeeds. -/
inductive Moves (job : Job) (phase : JobPhase) (s : System) : System → Prop where
  | spawn (h : s.goroutines.length < job.ntasks phase) :
      Moves job phase s { s with goroutines := s.goroutines ++ [.ready] }
  | crash (i : ℕ) (h : s.goroutines[i]? = some .ready) (harg : job.dtarg phase i = none) :
      Moves job phase s { s with stage := .crashed }
  | start (i : ℕ) (arg : DoTaskArgs) (h : s.goroutines[i]? = some .ready)
      (harg : job.dtarg phase i = some arg) :
      Moves job phase s { s with goroutines := s.goroutines.set i (.waiting arg) }
  | take (i : ℕ) (w : Worker) (arg : DoTaskArgs) (h : s.goroutines[i]? = some (.waiting arg))
      (hw : w ∈ s.senders) :
      Moves job phase s
        { s with
          senders := s.senders.erase w
          goroutines := s.goroutines.set i (.calling arg w none) }
  | read (i : ℕ) (w : Worker) (arg : DoTaskArgs)
      (h : s.goroutines[i]? = some (.calling arg w none)) :
      Moves job phase s
        { s with goroutines := s.goroutines.set i (.calling arg w (some (job.work arg s.fs))) }
  | write (i : ℕ) (w : Worker) (arg : DoTaskArgs) (op : FileOp) (ops : List FileOp) (returns : Bool)
      (h : s.goroutines[i]? = some (.calling arg w (some ⟨op :: ops, returns⟩))) :
      Moves job phase s
        { s with
          fs := op.apply s.fs
          goroutines := s.goroutines.set i (.calling arg w (some ⟨ops, returns⟩)) }
  | reply (i : ℕ) (w : Worker) (arg : DoTaskArgs)
      (h : s.goroutines[i]? = some (.calling arg w (some ⟨[], true⟩))) :
      Moves job phase s
        { s with
          senders := s.senders ++ [w]
          goroutines := s.goroutines.set i .served
          replies := s.replies ++ [(phase, i)] }
  | fail (i : ℕ) (w : Worker) (arg : DoTaskArgs) (work : Option Work)
      (h : s.goroutines[i]? = some (.calling arg w work)) :
      Moves job phase s { s with goroutines := s.goroutines.set i (.waiting arg) }
  | signal (i : ℕ) (h : s.goroutines[i]? = some .served) :
      Moves job phase s { s with tokens := s.tokens + 1, goroutines := s.goroutines.set i .done }
  | receive (hlen : s.goroutines.length = job.ntasks phase) (h : s.received < job.ntasks phase)
      (htokens : 0 < s.tokens) :
      Moves job phase s { s with tokens := s.tokens - 1, received := s.received + 1 }
  | finish (hlen : s.goroutines.length = job.ntasks phase) (h : s.received = job.ntasks phase) :
      Moves job phase s { s with stage := phase.next, goroutines := [], tokens := 0, received := 0 }

theorem moves_of_scheduleStep {e : Event} (h : scheduleStep job phase s e = some s') :
    Moves job phase s s' := by
  cases e with
  | register w => cases h
  | merge => cases h
  | spawn =>
    simp only [scheduleStep] at h
    split_ifs at h with hlt
    cases h
    exact .spawn hlt
  | start i =>
    simp only [scheduleStep] at h
    split at h
    · next hi =>
      split at h
      · next harg =>
        cases h
        exact .crash i hi harg
      · next arg harg =>
        cases h
        exact .start i arg hi harg
    · cases h
  | take i w =>
    simp only [scheduleStep] at h
    split at h
    · next arg hi =>
      split_ifs at h with hw
      cases h
      exact .take i w arg hi hw
    · cases h
  | read i =>
    simp only [scheduleStep] at h
    split at h
    · next arg w hi =>
      cases h
      exact .read i w arg hi
    · cases h
  | write i =>
    simp only [scheduleStep] at h
    split at h
    · next arg w op ops returns hi =>
      cases h
      exact .write i w arg op ops returns hi
    · cases h
  | reply i =>
    simp only [scheduleStep] at h
    split at h
    · next arg w hi =>
      cases h
      exact .reply i w arg hi
    · cases h
  | fail i =>
    simp only [scheduleStep] at h
    split at h
    · next arg w work hi =>
      cases h
      exact .fail i w arg work hi
    · cases h
  | signal i =>
    simp only [scheduleStep] at h
    split at h
    · next hi =>
      cases h
      exact .signal i hi
    · cases h
  | receive =>
    simp only [scheduleStep] at h
    split_ifs at h with hcond
    cases h
    exact .receive hcond.1 hcond.2.1 hcond.2.2
  | finish =>
    simp only [scheduleStep] at h
    split_ifs at h with hcond
    cases h
    exact .finish hcond.1 hcond.2

/-! ## Workers -/

/-- Goroutine `i` has a call to `w` outstanding. -/
def System.Calls (s : System) (i : ℕ) (w : Worker) : Prop :=
  ∃ arg work, s.goroutines[i]? = some (.calling arg w work)

/-- A worker is offered or called, and not twice. -/
structure WorkersOk (s : System) : Prop where
  nodup : s.senders.Nodup
  sent : ∀ w ∈ s.senders, w ∈ s.workers
  called : ∀ i w, s.Calls i w → w ∈ s.workers ∧ w ∉ s.senders
  once : ∀ i j w, s.Calls i w → s.Calls j w → i = j

/-- Moves that neither offer nor call a worker. -/
theorem WorkersOk.of_calls (h : WorkersOk s) (hworkers : s'.workers = s.workers)
    (hsenders : s'.senders = s.senders) (hcalls : ∀ i w, s'.Calls i w → s.Calls i w) :
    WorkersOk s' := by
  refine ⟨hsenders ▸ h.nodup, ?_, ?_, fun i j w hi hj => h.once i j w (hcalls i w hi) (hcalls j w hj)⟩
  · rw [hsenders, hworkers]
    exact h.sent
  · rw [hsenders, hworkers]
    exact fun i w hi => h.called i w (hcalls i w hi)

/-- A call in the list with one goroutine replaced. -/
theorem calls_set {gs : List Goroutine} {i j : ℕ} {g : Goroutine} {arg : DoTaskArgs} {w : Worker}
    {work : Option Work} (h : (gs.set i g)[j]? = some (.calling arg w work)) :
    (j = i ∧ g = .calling arg w work) ∨ (j ≠ i ∧ gs[j]? = some (.calling arg w work)) := by
  rw [List.getElem?_set] at h
  split_ifs at h with hij hlt
  · exact Or.inl ⟨hij.symm, Option.some.inj h⟩
  · exact Or.inr ⟨Ne.symm hij, h⟩

/-- The same for a goroutine that is not calling afterwards. -/
theorem calls_set_idle {gs : List Goroutine} {i j : ℕ} {g : Goroutine}
    (hg : ∀ arg w work, g ≠ .calling arg w work) {w : Worker}
    (h : ∃ arg work, (gs.set i g)[j]? = some (.calling arg w work)) :
    j ≠ i ∧ ∃ arg work, gs[j]? = some (.calling arg w work) := by
  obtain ⟨arg, work, h⟩ := h
  rcases calls_set h with ⟨-, hcall⟩ | ⟨hne, hcall⟩
  · exact absurd hcall (hg arg w work)
  · exact ⟨hne, arg, work, hcall⟩

theorem WorkersOk.moves (h : WorkersOk s) (hm : Moves job phase s s') : WorkersOk s' := by
  cases hm with
  | spawn hlt =>
    refine h.of_calls rfl rfl ?_
    rintro j w ⟨arg, work, hj⟩
    dsimp only at hj
    rw [List.getElem?_append] at hj
    split_ifs at hj with hjlt
    · exact ⟨arg, work, hj⟩
    · have := List.mem_of_getElem? hj
      rw [List.mem_singleton] at this
      cases this
  | crash i hi harg => exact h.of_calls rfl rfl fun _ _ hj => hj
  | start i arg hi harg =>
    exact h.of_calls rfl rfl fun _ _ hj => (calls_set_idle (by rintro _ _ _ ⟨⟩) hj).2
  | take i w arg hi hw =>
    have hfresh : ∀ j, ¬ s.Calls j w := fun j hj => (h.called j w hj).2 hw
    refine ⟨h.nodup.erase w, fun v hv => h.sent v (List.mem_of_mem_erase hv), ?_, ?_⟩
    · rintro j v ⟨arg', work, hj⟩
      rcases calls_set hj with ⟨-, hcall⟩ | ⟨-, hcall⟩
      · cases hcall
        exact ⟨h.sent w hw, h.nodup.not_mem_erase⟩
      · obtain ⟨hin, hout⟩ := h.called j v ⟨arg', work, hcall⟩
        exact ⟨hin, fun hv => hout (List.mem_of_mem_erase hv)⟩
    · rintro j k v ⟨arg₁, work₁, hj⟩ ⟨arg₂, work₂, hk⟩
      rcases calls_set hj with ⟨rfl, hcall⟩ | ⟨-, hcall⟩
      · rcases calls_set hk with ⟨rfl, -⟩ | ⟨-, hcall'⟩
        · rfl
        · cases hcall
          exact absurd ⟨arg₂, work₂, hcall'⟩ (hfresh k)
      · rcases calls_set hk with ⟨rfl, hcall'⟩ | ⟨-, hcall'⟩
        · cases hcall'
          exact absurd ⟨arg₁, work₁, hcall⟩ (hfresh j)
        · exact h.once j k v ⟨arg₁, work₁, hcall⟩ ⟨arg₂, work₂, hcall'⟩
  | read i w arg hi =>
    refine h.of_calls rfl rfl ?_
    rintro j v ⟨arg', work, hj⟩
    rcases calls_set hj with ⟨rfl, hcall⟩ | ⟨-, hcall⟩
    · cases hcall
      exact ⟨arg, none, hi⟩
    · exact ⟨arg', work, hcall⟩
  | write i w arg op ops returns hi =>
    refine h.of_calls rfl rfl ?_
    rintro j v ⟨arg', work, hj⟩
    rcases calls_set hj with ⟨rfl, hcall⟩ | ⟨-, hcall⟩
    · cases hcall
      exact ⟨arg, _, hi⟩
    · exact ⟨arg', work, hcall⟩
  | reply i w arg hi =>
    obtain ⟨hin, hout⟩ := h.called i w ⟨arg, _, hi⟩
    refine ⟨?_, ?_, ?_, ?_⟩
    · exact h.nodup.append (List.nodup_singleton w) (by simpa using hout)
    · intro v hv
      rcases List.mem_append.mp hv with hv | hv
      · exact h.sent v hv
      · exact List.mem_singleton.mp hv ▸ hin
    · intro j v hj
      obtain ⟨hne, hcall⟩ := calls_set_idle (by rintro _ _ _ ⟨⟩) hj
      obtain ⟨hin', hout'⟩ := h.called j v hcall
      refine ⟨hin', fun hv => ?_⟩
      rcases List.mem_append.mp hv with hv | hv
      · exact hout' hv
      · rw [List.mem_singleton.mp hv] at hcall
        exact hne (h.once j i w hcall ⟨arg, _, hi⟩)
    · intro j k v hj hk
      exact h.once j k v (calls_set_idle (by rintro _ _ _ ⟨⟩) hj).2
        (calls_set_idle (by rintro _ _ _ ⟨⟩) hk).2
  | fail i w arg work hi =>
    exact h.of_calls rfl rfl fun _ _ hj => (calls_set_idle (by rintro _ _ _ ⟨⟩) hj).2
  | signal i hi =>
    exact h.of_calls rfl rfl fun _ _ hj => (calls_set_idle (by rintro _ _ _ ⟨⟩) hj).2
  | receive hlen hlt htokens => exact h.of_calls rfl rfl fun _ _ hj => hj
  | finish hlen hreceived =>
    refine h.of_calls rfl rfl ?_
    rintro j w ⟨arg, work, hj⟩
    cases hj

theorem WorkersOk.register (h : WorkersOk s) {w : Worker} (hw : w ∉ s.workers) :
    WorkersOk { s with workers := s.workers ++ [w], senders := s.senders ++ [w] } := by
  have hnot : w ∉ s.senders := fun hmem => hw (h.sent w hmem)
  refine ⟨h.nodup.append (List.nodup_singleton w) (by simpa using hnot), ?_, ?_, h.once⟩
  · intro v hv
    rcases List.mem_append.mp hv with hv | hv
    · exact List.mem_append_left _ (h.sent v hv)
    · exact List.mem_append_right _ hv
  · intro j v hj
    obtain ⟨hin, hout⟩ := h.called j v hj
    refine ⟨List.mem_append_left _ hin, fun hv => ?_⟩
    rcases List.mem_append.mp hv with hv | hv
    · exact hout hv
    · cases List.mem_singleton.mp hv
      exact hw hin

/-! ## A phase -/

/-- How far the task of a goroutine is, in a phase that began with `fs₀`. -/
def RoutineOk (job : Job) (phase : JobPhase) (fs₀ fs : FileSystem)
    (replies : List (JobPhase × ℕ)) (i : ℕ) : Goroutine → Prop
  | .ready => True
  | .waiting arg => job.dtarg phase i = some arg
  | .calling arg _ none => job.dtarg phase i = some arg
  | .calling arg _ (some work) => job.dtarg phase i = some arg ∧
      work.returns = (job.work arg fs₀).returns ∧
      ∃ base ops, (job.work arg fs₀).ops = ops ++ work.ops ∧
        ∀ name, job.Owns phase i name → fs name = FileOp.applyAll base ops name
  | .served => job.Settled phase fs₀ fs i ∧ (phase, i) ∈ replies
  | .done => job.Settled phase fs₀ fs i ∧ (phase, i) ∈ replies

theorem Job.Settled.congr (h : job.Settled phase fs₀ fs i)
    (hfs : ∀ name, job.Owns phase i name → fs' name = fs name) : job.Settled phase fs₀ fs' i := by
  obtain ⟨arg, harg, hreturns, hset⟩ := h
  exact ⟨arg, harg, hreturns, fun name hname => (hfs name hname).trans (hset name hname)⟩

/-- Steps that leave the files of a task alone. -/
theorem RoutineOk.congr {replies replies' : List (JobPhase × ℕ)} {g : Goroutine}
    (h : RoutineOk job phase fs₀ fs replies i g)
    (hfs : ∀ name, job.Owns phase i name → fs' name = fs name) (hreplies : replies ⊆ replies') :
    RoutineOk job phase fs₀ fs' replies' i g := by
  cases g with
  | ready => trivial
  | waiting arg => exact h
  | calling arg w work =>
    cases work with
    | none => exact h
    | some work =>
      obtain ⟨harg, hreturns, base, ops, hops, hset⟩ := h
      exact ⟨harg, hreturns, base, ops, hops,
        fun name hname => (hfs name hname).trans (hset name hname)⟩
  | served => exact ⟨h.1.congr hfs, hreplies h.2⟩
  | done => exact ⟨h.1.congr hfs, hreplies h.2⟩

def Goroutine.isDone (g : Goroutine) : Bool := g = .done

structure PhaseOk (job : Job) (phase : JobPhase) (fs₀ : FileSystem) (s : System) : Prop where
  routines : ∀ i g, s.goroutines[i]? = some g → RoutineOk job phase fs₀ s.fs s.replies i g
  others : ∀ name, (∀ i < job.ntasks phase, ¬ job.Owns phase i name) → s.fs name = fs₀ name
  length : s.goroutines.length ≤ job.ntasks phase
  signals : s.tokens + s.received = s.goroutines.countP Goroutine.isDone

theorem phaseOk_start (job : Job) (phase : JobPhase) (h : s.goroutines = []) (htokens : s.tokens = 0)
    (hreceived : s.received = 0) : PhaseOk job phase s.fs s := by
  refine ⟨?_, fun _ _ => rfl, by rw [h]; exact Nat.zero_le _, by rw [h, htokens, hreceived]; rfl⟩
  intro i g hg
  rw [h] at hg
  cases hg

/-- One goroutine moves on, and changes no file but its own. -/
theorem PhaseOk.set {g g' : Goroutine} (h : PhaseOk job phase fs₀ s)
    (hi : s.goroutines[i]? = some g) (hgs : s'.goroutines = s.goroutines.set i g')
    (hg' : RoutineOk job phase fs₀ s'.fs s'.replies i g')
    (hfs : ∀ name, ¬ job.Owns phase i name → s'.fs name = s.fs name)
    (hreplies : s.replies ⊆ s'.replies)
    (hsignals : s'.tokens + s'.received + g.isDone.toNat =
      s.tokens + s.received + g'.isDone.toNat) : PhaseOk job phase fs₀ s' := by
  obtain ⟨hlt, hget⟩ := List.getElem?_eq_some_iff.mp hi
  refine ⟨?_, ?_, by rw [hgs, List.length_set]; exact h.length, ?_⟩
  · intro j gj hj
    rw [hgs, List.getElem?_set] at hj
    split_ifs at hj with hij
    · cases hj
      exact hij ▸ hg'
    · refine (h.routines j gj hj).congr (fun name hname => hfs name fun hown => ?_) hreplies
      exact hij (Job.owns_unique hown hname)
  · intro name hname
    rw [hfs name (hname i (hlt.trans_le h.length)), h.others name hname]
  · have hcount := List.countP_set (p := Goroutine.isDone) (a := g') hlt
    have hpos : g.isDone = true → 0 < s.goroutines.countP Goroutine.isDone := by
      intro hdone
      exact List.countP_pos_iff.mpr ⟨g, List.mem_of_getElem? hi, hdone⟩
    rw [hgs, hcount, hget, ← h.signals]
    rw [← h.signals] at hpos
    cases hg : g.isDone <;> cases hg'' : g'.isDone <;> simp [hg, hg''] at hsignals hpos ⊢ <;> omega

/-- A phase that returns: every task is settled and has had its reply. -/
theorem PhaseOk.finish (h : PhaseOk job phase fs₀ s)
    (hlen : s.goroutines.length = job.ntasks phase) (hreceived : s.received = job.ntasks phase) :
    job.Upto phase fs₀ (job.ntasks phase) s.fs ∧
      ∀ i < job.ntasks phase, (phase, i) ∈ s.replies := by
  have hall : s.goroutines.countP Goroutine.isDone = s.goroutines.length := by
    have hle := List.countP_le_length (p := Goroutine.isDone) (l := s.goroutines)
    have := h.signals
    omega
  have hdone : ∀ i < job.ntasks phase, s.goroutines[i]? = some .done := by
    intro i hi
    rw [← hlen] at hi
    rw [List.getElem?_eq_getElem hi]
    exact congrArg some (of_decide_eq_true (List.countP_eq_length.mp hall _ (List.getElem_mem hi)))
  exact ⟨⟨fun i hi => (h.routines i _ (hdone i hi)).1, h.others⟩,
    fun i hi => (h.routines i _ (hdone i hi)).2⟩

/-- The schedule of a phase that began with `fs₀` has just returned. -/
structure PhaseDone (job : Job) (phase : JobPhase) (fs₀ : FileSystem) (s : System) : Prop where
  stage : s.stage = phase.next
  goroutines : s.goroutines = []
  tokens : s.tokens = 0
  received : s.received = 0
  upto : job.Upto phase fs₀ (job.ntasks phase) s.fs
  replies : ∀ i < job.ntasks phase, (phase, i) ∈ s.replies

/-- What a move does to a phase in which every index is in range. -/
theorem PhaseOk.moves (hinputs : job.InputsApart)
    (hindex : job.ntasks phase ≤ job.files.length) (h : PhaseOk job phase fs₀ s)
    (hm : Moves job phase s s') :
    (s'.stage = s.stage ∧ PhaseOk job phase fs₀ s') ∨ PhaseDone job phase fs₀ s' := by
  cases hm with
  | spawn hlt =>
    refine Or.inl ⟨rfl, ?_, h.others, ?_, ?_⟩
    · intro j g hj
      dsimp only at hj
      rw [List.getElem?_append] at hj
      split_ifs at hj
      · exact h.routines j g hj
      · rw [List.mem_singleton.mp (List.mem_of_getElem? hj)]
        trivial
    · rw [List.length_append, List.length_singleton]
      omega
    · rw [List.countP_append]
      exact h.signals
  | crash i hi harg =>
    have hlt := (List.getElem?_eq_some_iff.mp hi).1
    obtain ⟨arg, hsome⟩ := Job.dtarg_isSome phase
      ((hlt.trans_le h.length).trans_le hindex)
    rw [harg] at hsome
    cases hsome
  | start i arg hi harg =>
    exact Or.inl ⟨rfl, h.set hi rfl harg (fun _ _ => rfl) (List.Subset.refl _) rfl⟩
  | take i w arg hi hw =>
    have harg := h.routines i _ hi
    exact Or.inl ⟨rfl, h.set hi rfl harg (fun _ _ => rfl) (List.Subset.refl _) rfl⟩
  | read i w arg hi =>
    have harg := h.routines i _ hi
    have hwork : job.work arg s.fs = job.work arg fs₀ := Job.work_congr hinputs harg h.others
    refine Or.inl ⟨rfl, h.set hi rfl ?_ (fun _ _ => rfl) (List.Subset.refl _) rfl⟩
    exact ⟨harg, by rw [hwork], s.fs, [], by rw [hwork]; rfl, fun _ _ => rfl⟩
  | write i w arg op ops returns hi =>
    obtain ⟨harg, hreturns, base, done, hops, hset⟩ := h.routines i _ hi
    have hmem : op ∈ (job.work arg fs₀).ops := by
      rw [hops]
      exact List.mem_append_right _ List.mem_cons_self
    have hown := Job.target_work harg hmem
    refine Or.inl ⟨rfl, h.set hi rfl ?_ ?_ (List.Subset.refl _) rfl⟩
    · refine ⟨harg, hreturns, base, done ++ [op], by rw [hops, List.append_assoc]; rfl, ?_⟩
      intro name hname
      rw [FileOp.applyAll_append]
      exact FileOp.applyAll_congr [op] (hset name hname)
    · intro name hname
      exact FileOp.apply_ne fun heq => hname (heq ▸ hown)
  | reply i w arg hi =>
    obtain ⟨harg, hreturns, base, done, hops, hset⟩ := h.routines i _ hi
    refine Or.inl ⟨rfl, h.set hi rfl ?_ (fun _ _ => rfl) (List.subset_append_left _ _) rfl⟩
    refine ⟨⟨arg, harg, hreturns.symm, fun name hname => ?_⟩,
      List.mem_append_right _ (List.mem_singleton.mpr rfl)⟩
    dsimp only at hops
    rw [List.append_nil] at hops
    rw [hset name hname, ← hops]
    exact Job.work_settles harg hreturns.symm hname _ _
  | fail i w arg work hi =>
    have harg : job.dtarg phase i = some arg := by
      have := h.routines i _ hi
      cases work with
      | none => exact this
      | some work => exact this.1
    exact Or.inl ⟨rfl, h.set hi rfl harg (fun _ _ => rfl) (List.Subset.refl _) rfl⟩
  | signal i hi =>
    have hserved := h.routines i _ hi
    refine Or.inl ⟨rfl, h.set hi rfl hserved (fun _ _ => rfl) (List.Subset.refl _) ?_⟩
    dsimp only
    rw [show Goroutine.isDone .served = false from rfl, show Goroutine.isDone .done = true from rfl]
    simp only [Bool.toNat_false, Bool.toNat_true]
    omega
  | receive hlen hlt htokens =>
    refine Or.inl ⟨rfl, h.routines, h.others, h.length, ?_⟩
    rw [← h.signals]
    dsimp only
    omega
  | finish hlen hreceived =>
    obtain ⟨hupto, hreplies⟩ := h.finish hlen hreceived
    exact Or.inr ⟨rfl, rfl, rfl, rfl, hupto, hreplies⟩

/-! ## Runs -/

/-- The schedule of the phase has returned. -/
def System.Past (s : System) : JobPhase → Prop
  | .map => s.stage = .schedule .reduce ∨ s.stage = .merge ∨ s.stage = .done
  | .reduce => s.stage = .merge ∨ s.stage = .done

/-- How far the whole job is, from `fs₀` on. -/
def StageOk (job : Job) (fs₀ : FileSystem) (s : System) : Prop :=
  match s.stage with
  | .schedule .map => PhaseOk job .map fs₀ s
  | .schedule .reduce => ∃ fs₁, job.runPhase .map fs₀ = some ((), fs₁) ∧ PhaseOk job .reduce fs₁ s
  | .merge => ∃ fs₁, job.runPhase .map fs₀ = some ((), fs₁) ∧
      job.runPhase .reduce fs₁ = some ((), s.fs)
  | .done => sequential job.json job.jobName job.files job.nReduce job.mapF job.reduceF fs₀ =
      some ((), s.fs)
  | .crashed => False

/-- The invariant of every run in which each worker registers once. -/
structure SystemOk (job : Job) (fs₀ : FileSystem) (s : System) : Prop where
  workers : WorkersOk s
  stage : StageOk job fs₀ s
  replies : ∀ phase, s.Past phase → ∀ i < job.ntasks phase, (phase, i) ∈ s.replies

theorem systemOk_start (job : Job) (fs₀ : FileSystem) : SystemOk job fs₀ (.start fs₀) where
  workers := by
    refine ⟨List.nodup_nil, ?_, ?_, ?_⟩
    · intro w hw
      cases hw
    · rintro i w ⟨arg, work, hi⟩
      cases hi
    · rintro i j w ⟨arg, work, hi⟩
      cases hi
  stage := by
    have hstart : PhaseOk job .map (System.start fs₀).fs (System.start fs₀) :=
      phaseOk_start job .map rfl rfl rfl
    exact hstart
  replies := by
    rintro (_ | _) hpast
    · rcases hpast with h | h | h <;> cases h
    · rcases hpast with h | h <;> cases h

theorem Moves.replies_subset (hm : Moves job phase s s') : s.replies ⊆ s'.replies := by
  cases hm with
  | reply i w arg hi => exact List.subset_append_left _ _
  | spawn | crash | start | take | read | write | fail | signal | receive | finish =>
    exact List.Subset.refl _

/-- Where no stage is left, what was served stays served. -/
theorem replies_of_stage (hstage : s'.stage = s.stage) (hsub : s.replies ⊆ s'.replies)
    (h : ∀ phase, s.Past phase → ∀ i < job.ntasks phase, (phase, i) ∈ s.replies) :
    ∀ phase, s'.Past phase → ∀ i < job.ntasks phase, (phase, i) ∈ s'.replies := by
  intro phase hpast i hi
  refine hsub (h phase ?_ i hi)
  cases phase <;> rwa [System.Past, hstage] at hpast

theorem SystemOk.moves (hinputs : job.InputsApart) (hindex : job.nReduce ≤ job.files.length)
    (h : SystemOk job fs₀ s) (hs : s.stage = .schedule phase) (hm : Moves job phase s s') :
    SystemOk job fs₀ s' := by
  have hworkers := h.workers.moves hm
  have hstage := h.stage
  rw [StageOk, hs] at hstage
  cases phase with
  | map =>
    rcases hstage.moves hinputs le_rfl hm with ⟨hsame, hok⟩ | hdone
    · refine ⟨hworkers, ?_, replies_of_stage hsame hm.replies_subset h.replies⟩
      rw [StageOk, hsame, hs]
      exact hok
    · refine ⟨hworkers, ?_, ?_⟩
      · rw [StageOk, hdone.stage]
        exact ⟨s'.fs, hdone.upto.runPhase hinputs,
          phaseOk_start job .reduce hdone.goroutines hdone.tokens hdone.received⟩
      · rintro (_ | _) hpast i hi
        · exact hdone.replies i hi
        · rw [System.Past, hdone.stage] at hpast
          rcases hpast with hp | hp <;> cases hp
  | reduce =>
    obtain ⟨fs₁, hmap, hok⟩ := hstage
    have hrange : job.ntasks .reduce ≤ job.files.length := hindex
    rcases hok.moves hinputs hrange hm with ⟨hsame, hok'⟩ | hdone
    · refine ⟨hworkers, ?_, replies_of_stage hsame hm.replies_subset h.replies⟩
      rw [StageOk, hsame, hs]
      exact ⟨fs₁, hmap, hok'⟩
    · refine ⟨hworkers, ?_, ?_⟩
      · rw [StageOk, hdone.stage]
        exact ⟨fs₁, hmap, hdone.upto.runPhase hinputs⟩
      · rintro (_ | _) hpast i hi
        · exact hm.replies_subset (h.replies .map (Or.inl hs) i hi)
        · exact hdone.replies i hi

/-- Each worker registers once, as `RunWorker` does. -/
def RegistersOnce (s : System) (e : Event) : Prop := ∀ w, e = .register w → w ∉ s.workers

/-- Every event but a registration and the merge belongs to a phase. -/
theorem schedule_of_step {e : Event} (hregister : ∀ w, e ≠ .register w) (hmerge : e ≠ .merge)
    (hstep : MapReduce.step job s e = some s') :
    ∃ phase, s.stage = .schedule phase ∧ scheduleStep job phase s e = some s' := by
  cases e with
  | register w => exact absurd rfl (hregister w)
  | merge => exact absurd rfl hmerge
  | spawn | start | take | read | write | reply | fail | signal | receive | finish =>
    simp only [MapReduce.step] at hstep
    split at hstep
    · next phase hs => exact ⟨phase, hs, hstep⟩
    · cases hstep

theorem SystemOk.step (hinputs : job.InputsApart) (hindex : job.nReduce ≤ job.files.length)
    (h : SystemOk job fs₀ s) {e : Event} (he : RegistersOnce s e)
    (hstep : MapReduce.step job s e = some s') : SystemOk job fs₀ s' := by
  -- the moves of a phase, whatever the event
  have hmoves : (∀ w, e ≠ .register w) → e ≠ .merge → SystemOk job fs₀ s' := by
    intro hregister hmerge
    obtain ⟨phase, hs, hmove⟩ := schedule_of_step hregister hmerge hstep
    exact h.moves hinputs hindex hs (moves_of_scheduleStep hmove)
  cases e with
  | register w =>
    cases hstep
    refine ⟨h.workers.register (he w rfl), ?_, h.replies⟩
    have hstage := h.stage
    rw [StageOk] at hstage ⊢
    dsimp only
    cases hs : s.stage with
    | schedule phase =>
      rw [hs] at hstage
      cases phase with
      | map => exact ⟨hstage.routines, hstage.others, hstage.length, hstage.signals⟩
      | reduce =>
        obtain ⟨fs₁, hmap, hok⟩ := hstage
        exact ⟨fs₁, hmap, hok.routines, hok.others, hok.length, hok.signals⟩
    | merge =>
      rw [hs] at hstage
      exact hstage
    | done =>
      rw [hs] at hstage
      exact hstage
    | crashed =>
      rw [hs] at hstage
      exact hstage
  | merge =>
    simp only [MapReduce.step] at hstep
    split_ifs at hstep with hs
    obtain ⟨p, hmerge, rfl⟩ := Option.map_eq_some_iff.mp hstep
    have hstage := h.stage
    rw [StageOk, hs] at hstage
    obtain ⟨fs₁, hmap, hreduce⟩ := hstage
    refine ⟨h.workers.of_calls rfl rfl fun _ _ hj => hj, ?_, ?_⟩
    · change sequential job.json job.jobName job.files job.nReduce job.mapF job.reduceF fs₀ =
        some ((), p.2)
      change (job.runPhase .map fs₀).bind _ = _
      rw [hmap]
      change (job.runPhase .reduce fs₁).bind _ = _
      rw [hreduce]
      exact hmerge
    · rintro (_ | _) - i hi
      · exact h.replies .map (Or.inr (Or.inl hs)) i hi
      · exact h.replies .reduce (Or.inl hs) i hi
  | spawn => exact hmoves (by simp) (by simp)
  | start i => exact hmoves (by simp) (by simp)
  | take i w => exact hmoves (by simp) (by simp)
  | read i => exact hmoves (by simp) (by simp)
  | write i => exact hmoves (by simp) (by simp)
  | reply i => exact hmoves (by simp) (by simp)
  | fail i => exact hmoves (by simp) (by simp)
  | signal i => exact hmoves (by simp) (by simp)
  | receive => exact hmoves (by simp) (by simp)
  | finish => exact hmoves (by simp) (by simp)

/-! ## Progress -/

/-- The steps that the master takes without a worker. -/
def Event.ofMaster : Event → Prop
  | .signal _ | .receive | .finish => True
  | _ => False

/-- Every task of the phase has had its successful reply. -/
def System.AllServed (job : Job) (phase : JobPhase) (s : System) : Prop :=
  s.goroutines.length = job.ntasks phase ∧ ∀ g ∈ s.goroutines, g = .served ∨ g = .done

theorem step_of_scheduleStep {e : Event} (he : e.ofMaster) (hs : s.stage = .schedule phase) :
    step job s e = scheduleStep job phase s e := by
  cases e with
  | signal i => simp only [step, hs]
  | receive => simp only [step, hs]
  | finish => simp only [step, hs]
  | register | spawn | start | take | read | write | reply | fail | merge => exact he.elim

theorem finish_step (hs : s.stage = .schedule phase)
    (hlen : s.goroutines.length = job.ntasks phase) (hreceived : s.received = job.ntasks phase) :
    ∃ t, Reaches (step job) (fun _ e => e.ofMaster) s t ∧ t.stage = phase.next := by
  have hmaster : Event.ofMaster .finish := trivial
  have hstep : step job s .finish =
      some { s with stage := phase.next, goroutines := [], tokens := 0, received := 0 } := by
    rw [step_of_scheduleStep hmaster hs]
    exact if_pos ⟨hlen, hreceived⟩
  exact ⟨_, Reaches.refl.tail hmaster hstep, rfl⟩

/-- The master then gets to the end of the phase by itself. The measure counts two steps
for a signal to be sent and one for a signal to be received. -/
theorem schedule_returns (n : ℕ) (hs : s.stage = .schedule phase) (hall : s.AllServed job phase)
    (hsignals : s.tokens + s.received = s.goroutines.countP Goroutine.isDone)
    (hn : 2 * (s.goroutines.length - s.goroutines.countP Goroutine.isDone) + s.tokens ≤ n) :
    ∃ t, Reaches (step job) (fun _ e => e.ofMaster) s t ∧ t.stage = phase.next := by
  induction n generalizing s with
  | zero =>
    obtain ⟨hlen, -⟩ := hall
    have hle := List.countP_le_length (p := Goroutine.isDone) (l := s.goroutines)
    exact finish_step hs hlen (by omega)
  | succ n ih =>
    obtain ⟨hlen, hgs⟩ := hall
    have hle := List.countP_le_length (p := Goroutine.isDone) (l := s.goroutines)
    by_cases hserved : .served ∈ s.goroutines
    · obtain ⟨i, hi⟩ := List.mem_iff_getElem?.mp hserved
      obtain ⟨hlt, hget⟩ := List.getElem?_eq_some_iff.mp hi
      have hcount := List.countP_set (p := Goroutine.isDone) (a := .done) hlt
      rw [hget] at hcount
      change _ = s.goroutines.countP Goroutine.isDone - 0 + 1 at hcount
      have hle' := List.countP_le_length (p := Goroutine.isDone) (l := s.goroutines.set i .done)
      rw [List.length_set] at hle'
      have hmaster : Event.ofMaster (.signal i) := trivial
      have hstep : step job s (.signal i) =
          some { s with tokens := s.tokens + 1, goroutines := s.goroutines.set i .done } := by
        rw [step_of_scheduleStep hmaster hs]
        simp only [scheduleStep, hi]
      have hgs' : ∀ g ∈ s.goroutines.set i .done, g = .served ∨ g = .done := by
        intro g hg
        rcases List.mem_or_eq_of_mem_set hg with hg | rfl
        · exact hgs g hg
        · exact Or.inr rfl
      obtain ⟨t, ht, hstage⟩ := ih
        (s := { s with tokens := s.tokens + 1, goroutines := s.goroutines.set i .done })
        hs ⟨by rw [List.length_set]; exact hlen, hgs'⟩ (by dsimp only; omega)
        (by dsimp only; rw [List.length_set]; omega)
      exact ⟨t, ht.head hmaster hstep, hstage⟩
    · have hdone : s.goroutines.countP Goroutine.isDone = s.goroutines.length := by
        rw [List.countP_eq_length]
        intro g hg
        rcases hgs g hg with rfl | rfl
        · exact absurd hg hserved
        · rfl
      by_cases htokens : 0 < s.tokens
      · have hmaster : Event.ofMaster .receive := trivial
        have hstep : step job s .receive =
            some { s with tokens := s.tokens - 1, received := s.received + 1 } := by
          rw [step_of_scheduleStep hmaster hs]
          exact if_pos ⟨hlen, by omega, htokens⟩
        obtain ⟨t, ht, hstage⟩ := ih (s := { s with tokens := s.tokens - 1, received := s.received + 1 })
          hs ⟨hlen, hgs⟩ (by dsimp only; omega) (by dsimp only; omega)
        exact ⟨t, ht.head hmaster hstep, hstage⟩
      · exact finish_step hs hlen (by omega)

theorem StageOk.signals (h : StageOk job fs₀ s) (hs : s.stage = .schedule phase) :
    s.tokens + s.received = s.goroutines.countP Goroutine.isDone := by
  rw [StageOk, hs] at h
  cases phase with
  | map => exact h.signals
  | reduce =>
    obtain ⟨_, _, hok⟩ := h
    exact hok.signals

/-- A job on one empty file that emits one pair. -/
def smallJob (nReduce : ℕ) : Job := ⟨plainJson, [106], [[102]], nReduce, emitLetter, firstValue⟩

theorem smallJob_inputsApart (nReduce : ℕ) : (smallJob nReduce).InputsApart := by
  intro file hfile m r hname
  have hlen := congrArg List.length hname
  rw [List.mem_singleton.mp hfile] at hlen
  simp [reduceName, tmpPrefix] at hlen

def registersOnce (s : System) : Event → Bool
  | .register w => !s.workers.contains w
  | _ => true

theorem registersOnce_of_true (s : System) (e : Event) (h : registersOnce s e = true) :
    RegistersOnce s e := by
  intro w he
  subst he
  simpa [registersOnce] using h

/-- The first worker dies after one call on the files; the second does both tasks. -/
def recoveredRun : List Event :=
  [.register [1], .spawn, .start 0, .take 0 [1], .read 0, .write 0, .register [2], .fail 0,
    .take 0 [2], .read 0, .write 0, .write 0, .reply 0, .signal 0, .receive, .finish,
    .spawn, .start 0, .take 0 [2], .read 0, .write 0, .write 0, .reply 0, .signal 0, .receive,
    .finish, .merge]

/-- The run up to the reduce phase, and its second goroutine. -/
def crashingRun : List Event :=
  [.register [1], .spawn, .start 0, .take 0 [1], .read 0, .write 0, .write 0, .write 0, .reply 0,
    .signal 0, .receive, .finish, .spawn, .spawn, .start 1]

end Courses.MapReduce
