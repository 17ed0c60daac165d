import Courses.SimpleDb.LockSystem

/-!
# What a step does to the locks and to the dependency graph

The facts about `tryAquire` and `releaseLock` that the deadlock results and the
buffer pool use: who gains and who loses a lock, and which edges come and go.
-/
set_option linter.unusedSectionVars false

namespace Courses.SimpleDb

open Relation Courses.Lib

namespace LockManager

variable {Tid Pid : Type} [DecidableEq Tid] [DecidableEq Pid]
variable {closesCycle : List (Tid × Tid) → Tid → Tid → Bool}
variable {lm : LockManager Tid Pid}

/-! ## Locks -/

theorem tryAquire_owner_mono (hx : ∀ p, lm.Exclusive p) {p : Pid} {y : Tid}
    (h : lm.ownerTrans p = some y) (tid : Tid) (pid : Pid) (perm : Permissions)
    (deps : List Tid) :
    (lm.tryAquire closesCycle tid pid perm deps).2.1.ownerTrans p = some y := by
  have hp := lm.passed closesCycle tid pid perm deps
  generalize lm.tryAquire closesCycle tid pid perm deps = r at hp
  cases hp with
  | already _ _ => exact h
  | own hs ho =>
    have hpp : p ≠ pid := by rintro rfl; simp [ho] at h
    simpa [Function.update_of_ne hpp] using h
  | upgrade hs ho =>
    have hpp : p ≠ pid := by
      rintro rfl
      simp [(hx p).not_shared h] at hs
    simpa [Function.update_of_ne hpp] using h
  | share _ _ => simpa [addSharer] using h
  | behindOwner holder _ _ _ =>
    rw [(lm.waitFor_locks closesCycle tid [holder]).1]
    exact h
  | behindReaders _ _ _ =>
    rw [(lm.waitFor_locks closesCycle tid (lm.sharedTrans pid)).1]
    exact h

theorem tryAquire_holds_mono (hx : ∀ p, lm.Exclusive p) {p : Pid} {y : Tid}
    (h : lm.Holds y p) (tid : Tid) (pid : Pid) (perm : Permissions) (deps : List Tid) :
    (lm.tryAquire closesCycle tid pid perm deps).2.1.Holds y p := by
  rcases h with h | h
  · exact .inl (tryAquire_owner_mono hx h tid pid perm deps)
  · have hp := lm.passed closesCycle tid pid perm deps
    generalize lm.tryAquire closesCycle tid pid perm deps = r at hp
    cases hp with
    | already _ _ => exact .inr h
    | own hs ho => exact .inr h
    | upgrade hs ho =>
      by_cases hpp : p = pid
      · subst hpp
        have hy : y = tid := by simpa [hs] using h
        exact .inl (by simp [hy])
      · exact .inr (by simpa [Function.update_of_ne hpp] using h)
    | share _ _ =>
      refine .inr ?_
      by_cases hpp : p = pid
      · subst hpp
        simp [addSharer, h]
      · simpa [addSharer, Function.update_of_ne hpp] using h
    | behindOwner holder _ _ _ =>
      refine .inr ?_
      rw [(lm.waitFor_locks closesCycle tid [holder]).2.1]
      exact h
    | behindReaders _ _ _ =>
      refine .inr ?_
      rw [(lm.waitFor_locks closesCycle tid (lm.sharedTrans pid)).2.1]
      exact h

/-- A pass takes no lock away from anyone. -/
theorem Conflicts.tryAquire (hx : ∀ p, lm.Exclusive p) {perm' : Permissions} {p : Pid}
    {x y : Tid} (h : lm.Conflicts perm' p x y) (tid : Tid) (pid : Pid) (perm : Permissions)
    (deps : List Tid) :
    (lm.tryAquire closesCycle tid pid perm deps).2.1.Conflicts perm' p x y := by
  refine ⟨h.1, ?_⟩
  cases perm' with
  | readOnly => exact tryAquire_owner_mono hx h.2 tid pid perm deps
  | readWrite => exact tryAquire_holds_mono hx h.2 tid pid perm deps

/-- Only the transaction that runs the pass gains a lock, on the page it asks for. -/
theorem tryAquire_holds_new {p : Pid} {y : Tid} {tid : Tid} {pid : Pid} {perm : Permissions}
    {deps : List Tid} (h : (lm.tryAquire closesCycle tid pid perm deps).2.1.Holds y p) :
    lm.Holds y p ∨ y = tid ∧ p = pid ∧
      (lm.tryAquire closesCycle tid pid perm deps).1 = .granted := by
  have hp := lm.passed closesCycle tid pid perm deps
  generalize lm.tryAquire closesCycle tid pid perm deps = r at hp h
  cases hp with
  | already _ _ => exact .inl h
  | own hs ho =>
    by_cases hpp : p = pid
    · subst hpp
      rcases h with h | h
      · exact .inr ⟨by simpa using h.symm, rfl, rfl⟩
      · exact .inl (.inr h)
    · exact .inl (by simpa [Holds, Function.update_of_ne hpp] using h)
  | upgrade hs ho =>
    by_cases hpp : p = pid
    · subst hpp
      rcases h with h | h
      · exact .inr ⟨by simpa using h.symm, rfl, rfl⟩
      · simp at h
    · exact .inl (by simpa [Holds, Function.update_of_ne hpp] using h)
  | share hs ho =>
    by_cases hpp : p = pid
    · subst hpp
      rcases h with h | h
      · exact .inl (.inl h)
      · have hor : y ∈ lm.sharedTrans p ∨ y = tid := by simpa [addSharer] using h
        rcases hor with h | h
        · exact .inl (.inr h)
        · exact .inr ⟨h, rfl, rfl⟩
    · exact .inl (by simpa [Holds, addSharer, Function.update_of_ne hpp] using h)
  | behindOwner holder _ _ _ =>
    obtain ⟨ho, hs, _⟩ := lm.waitFor_locks closesCycle tid [holder]
    exact .inl (by simpa only [Holds, ho, hs] using h)
  | behindReaders _ _ _ =>
    obtain ⟨ho, hs, _⟩ := lm.waitFor_locks closesCycle tid (lm.sharedTrans pid)
    exact .inl (by simpa only [Holds, ho, hs] using h)

/-- A granted request leaves its transaction with the lock it asked for. -/
theorem tryAquire_granted {tid : Tid} {pid : Pid} {perm : Permissions} {deps : List Tid}
    (h : (lm.tryAquire closesCycle tid pid perm deps).1 = .granted) :
    (lm.tryAquire closesCycle tid pid perm deps).2.1.Holds tid pid ∧
      (perm = .readWrite →
        (lm.tryAquire closesCycle tid pid perm deps).2.1.ownerTrans pid = some tid) := by
  have hp := lm.passed closesCycle tid pid perm deps
  generalize lm.tryAquire closesCycle tid pid perm deps = r at hp h
  cases hp with
  | already hh hw => exact ⟨hh, hw⟩
  | own hs ho => exact ⟨.inl (by simp), fun _ => by simp⟩
  | upgrade hs ho => exact ⟨.inl (by simp), fun _ => by simp⟩
  | share hs ho => exact ⟨.inr (by simp [addSharer]), nofun⟩
  | behindOwner holder _ _ _ => exact absurd h (lm.waitFor_not_granted closesCycle tid _)
  | behindReaders _ _ _ => exact absurd h (lm.waitFor_not_granted closesCycle tid _)

/-- A transaction that is new to the page was let in because nobody owns it, and
nobody reads it or the newcomer only reads. -/
theorem tryAquire_admitted {tid : Tid} {pid : Pid} {perm : Permissions} {deps : List Tid}
    (h : (lm.tryAquire closesCycle tid pid perm deps).1 = .granted) (hn : ¬ lm.Holds tid pid) :
    lm.ownerTrans pid = none ∧ (lm.sharedTrans pid = [] ∨ perm = .readOnly) := by
  have hp := lm.passed closesCycle tid pid perm deps
  generalize lm.tryAquire closesCycle tid pid perm deps = r at hp h
  cases hp with
  | already hh _ => exact absurd hh hn
  | own hs ho => exact ⟨ho, .inl hs⟩
  | upgrade hs _ => exact absurd (.inr (by simp [hs])) hn
  | share _ ho => exact ⟨ho, .inr rfl⟩
  | behindOwner holder _ _ _ => exact absurd h (lm.waitFor_not_granted closesCycle tid _)
  | behindReaders _ _ _ => exact absurd h (lm.waitFor_not_granted closesCycle tid _)

/-- A request that conflicts with a lock another transaction holds is not granted. -/
theorem tryAquire_not_granted (hx : ∀ p, lm.Exclusive p) {tid y : Tid} {pid : Pid}
    {perm : Permissions} (deps : List Tid) (h : lm.Conflicts perm pid tid y) :
    (lm.tryAquire closesCycle tid pid perm deps).1 ≠ .granted := by
  intro hg
  have hc : (lm.tryAquire closesCycle tid pid perm deps).2.1.Conflicts perm pid tid y :=
    h.tryAquire hx tid pid perm deps
  have hx' : (lm.tryAquire closesCycle tid pid perm deps).2.1.Exclusive pid :=
    tryAquire_exclusive hx tid pid perm deps pid
  obtain ⟨hh, hw⟩ := tryAquire_granted hg
  cases perm with
  | readOnly => exact hx'.not_holds hc.2 hc.1 hh
  | readWrite => exact hx'.not_holds (hw rfl) hc.1.symm hc.2

theorem releaseLock_owner_of_ne {tid y : Tid} (hne : y ≠ tid) (pid p : Pid) :
    (lm.releaseLock tid pid).ownerTrans p = some y ↔ lm.ownerTrans p = some y := by
  simp only [releaseLock]
  split_ifs with ho
  · by_cases hpp : p = pid
    · subst hpp
      simp [ho, hne.symm]
    · simp [Function.update_of_ne hpp]
  · rfl

theorem releaseLock_holds_of_ne {tid y : Tid} (hne : y ≠ tid) (pid p : Pid) :
    (lm.releaseLock tid pid).Holds y p ↔ lm.Holds y p := by
  refine or_congr (releaseLock_owner_of_ne hne pid p) ?_
  by_cases hpp : p = pid
  · subst hpp
    simp [releaseLock, List.mem_erase_of_ne hne]
  · simp [releaseLock, Function.update_of_ne hpp]

theorem releaseLock_conflicts_of_ne {tid y : Tid} (hne : y ≠ tid) (pid p : Pid)
    (perm : Permissions) (x : Tid) :
    (lm.releaseLock tid pid).Conflicts perm p x y ↔ lm.Conflicts perm p x y := by
  refine and_congr_right fun _ => ?_
  cases perm with
  | readOnly => exact releaseLock_owner_of_ne hne pid p
  | readWrite => exact releaseLock_holds_of_ne hne pid p

/-- The locks on the other pages are untouched. -/
theorem releaseLock_conflicts_of_page {tid : Tid} {pid p : Pid} (hpp : p ≠ pid)
    (perm : Permissions) (x y : Tid) :
    (lm.releaseLock tid pid).Conflicts perm p x y ↔ lm.Conflicts perm p x y := by
  have ho : (lm.releaseLock tid pid).ownerTrans p = lm.ownerTrans p := by
    simp only [releaseLock]
    split_ifs
    · exact Function.update_of_ne hpp _ _
    · rfl
  have hs : (lm.releaseLock tid pid).sharedTrans p = lm.sharedTrans p := by
    simp [releaseLock, Function.update_of_ne hpp]
  cases perm <;> simp only [Conflicts, Holds, ho, hs]

theorem releaseLock_holds_mono {tid y : Tid} {pid p : Pid}
    (h : (lm.releaseLock tid pid).Holds y p) : lm.Holds y p := by
  by_cases hy : y = tid
  · subst hy
    by_cases hpp : p = pid
    · subst hpp
      rcases h with h | h
      · refine .inl ?_
        simp only [releaseLock] at h
        split_ifs at h with ho
        · simp at h
        · exact h
      · exact .inr (List.mem_of_mem_erase (by simpa [releaseLock] using h))
    · rcases h with h | h
      · simp only [releaseLock] at h
        split_ifs at h
        · exact .inl (by simpa [Function.update_of_ne hpp] using h)
        · exact .inl h
      · exact .inr (by simpa [releaseLock, Function.update_of_ne hpp] using h)
  · exact (releaseLock_holds_of_ne hy pid p).mp h

theorem releaseLock_not_holds {pid : Pid} (hx : lm.Exclusive pid) (tid : Tid) :
    ¬ (lm.releaseLock tid pid).Holds tid pid := by
  rintro (h | h)
  · simp only [releaseLock] at h
    split_ifs at h with ho
    · simp at h
    · exact ho h
  · have hnd : (lm.sharedTrans pid).Nodup := by
      rcases hx with ⟨_, _, hs⟩ | ⟨_, hnd⟩
      · simp [hs]
      · exact hnd
    have hmem : tid ∈ (lm.sharedTrans pid).erase tid := by simpa [releaseLock] using h
    exact hnd.not_mem_erase hmem

/-! ## Edges -/

theorem mem_addDepsLoop {tid : Tid} (deps : List Tid) {E : List (Tid × Tid)} {a b : Tid}
    (h : (a, b) ∈ (addDepsLoop closesCycle tid E deps).1) :
    (a, b) ∈ E ∨ a = tid ∧ b ∈ deps ∧ b ≠ tid := by
  induction deps generalizing E with
  | nil => exact .inl h
  | cons dep deps ih =>
    simp only [addDepsLoop] at h
    split_ifs at h with hnew hc
    · exact .inl h
    · rcases ih h with h | ⟨ha, hb, hne⟩
      · rcases List.mem_cons.mp h with heq | h
        · obtain ⟨rfl, rfl⟩ := Prod.mk.inj heq
          exact .inr ⟨rfl, List.mem_cons_self, fun hbt => hnew.1 hbt.symm⟩
        · exact .inl h
      · exact .inr ⟨ha, List.mem_cons_of_mem _ hb, hne⟩
    · rcases ih h with h | ⟨ha, hb, hne⟩
      · exact .inl h
      · exact .inr ⟨ha, List.mem_cons_of_mem _ hb, hne⟩

theorem subset_addDepsLoop (tid : Tid) (deps : List Tid) (E : List (Tid × Tid)) :
    E ⊆ (addDepsLoop closesCycle tid E deps).1 := by
  induction deps generalizing E with
  | nil => exact fun _ h => h
  | cons dep deps ih =>
    simp only [addDepsLoop]
    split_ifs
    · exact fun _ h => h
    · exact fun _ h => ih _ (List.mem_cons_of_mem _ h)
    · exact ih E

/-- A loop that runs to its end has entered every dependency. -/
theorem addDepsLoop_complete {tid : Tid} (deps : List Tid) {E : List (Tid × Tid)}
    (h : (addDepsLoop closesCycle tid E deps).2 = false) {d : Tid} (hd : d ∈ deps)
    (hne : d ≠ tid) : (tid, d) ∈ (addDepsLoop closesCycle tid E deps).1 := by
  induction deps generalizing E with
  | nil => simp at hd
  | cons dep deps ih =>
    simp only [addDepsLoop] at h ⊢
    split_ifs at h ⊢ with hnew hc
    · rcases List.mem_cons.mp hd with rfl | hd
      · exact subset_addDepsLoop tid deps _ List.mem_cons_self
      · exact ih h hd
    · rcases List.mem_cons.mp hd with rfl | hd
      · have hin : (tid, d) ∈ E := by
          by_contra hn
          exact hnew ⟨hne.symm, hn⟩
        exact subset_addDepsLoop tid deps _ hin
      · exact ih h hd

theorem addDepsLoop_acyclic (hc : DagEdgeSpec closesCycle) (tid : Tid) (deps : List Tid)
    {E : List (Tid × Tid)} (hE : Acyclic E) :
    Acyclic (addDepsLoop closesCycle tid E deps).1 := by
  induction deps generalizing E with
  | nil => exact hE
  | cons dep deps ih =>
    simp only [addDepsLoop]
    split_ifs with hnew hcyc
    · exact hE
    · exact ih (hE.cons fun hr => hcyc ((hc E tid dep).mpr hr))
    · exact ih hE

/-- A loop that is stopped found a dependency from which `tid` is reached. The
edges the loop itself has added all leave `tid`, so the path is an old one. -/
theorem addDepsLoop_cycle (hc : DagEdgeSpec closesCycle) {tid : Tid} (deps : List Tid)
    {E : List (Tid × Tid)} (h : (addDepsLoop closesCycle tid E deps).2 = true) :
    ∃ d ∈ deps, d ≠ tid ∧ ReflTransGen (Edge E) d tid := by
  induction deps generalizing E with
  | nil => simp [addDepsLoop] at h
  | cons dep deps ih =>
    simp only [addDepsLoop] at h
    split_ifs at h with hnew hcyc
    · exact ⟨dep, List.mem_cons_self, fun hd => hnew.1 hd.symm, (hc E tid dep).mp hcyc⟩
    · obtain ⟨d, hd, hne, hr⟩ := ih h
      refine ⟨d, List.mem_cons_of_mem _ hd, hne, reflTransGen_of_out_edges ?_ hr⟩
      intro e he
      rcases List.mem_cons.mp he with rfl | he
      · exact .inr rfl
      · exact .inl he
    · obtain ⟨d, hd, hne, hr⟩ := ih h
      exact ⟨d, List.mem_cons_of_mem _ hd, hne, hr⟩

/-- A granted request only removes edges, and only edges that leave its transaction. -/
theorem tryAquire_granted_dependency {tid : Tid} {pid : Pid} {perm : Permissions}
    {deps : List Tid} (h : (lm.tryAquire closesCycle tid pid perm deps).1 = .granted)
    {a b : Tid} :
    ((a, b) ∈ (lm.tryAquire closesCycle tid pid perm deps).2.1.dependency →
        (a, b) ∈ lm.dependency) ∧
      (a ≠ tid → (a, b) ∈ lm.dependency →
        (a, b) ∈ (lm.tryAquire closesCycle tid pid perm deps).2.1.dependency) := by
  have hp := lm.passed closesCycle tid pid perm deps
  generalize lm.tryAquire closesCycle tid pid perm deps = r at hp h
  cases hp with
  | already _ _ => exact ⟨fun h => h, fun _ h => h⟩
  | own _ _ =>
    simp only [mem_removeDeps]
    exact ⟨fun h => h.1, fun hne h => ⟨h, fun h' => hne h'.1⟩⟩
  | upgrade _ _ =>
    simp only [mem_removeDeps]
    exact ⟨fun h => h.1, fun hne h => ⟨h, fun h' => hne h'.1⟩⟩
  | share _ _ =>
    simp only [addSharer, mem_removeDeps]
    exact ⟨fun h => h.1, fun hne h => ⟨h, fun h' => hne h'.1⟩⟩
  | behindOwner holder _ _ _ => exact absurd h (lm.waitFor_not_granted closesCycle tid _)
  | behindReaders _ _ _ => exact absurd h (lm.waitFor_not_granted closesCycle tid _)

/-- A request that is not granted waits for exactly the conflicting holders, and
there is one. -/
theorem tryAquire_blocked (hx : ∀ p, lm.Exclusive p) {tid : Tid} {pid : Pid}
    {perm : Permissions} {deps : List Tid}
    (h : (lm.tryAquire closesCycle tid pid perm deps).1 ≠ .granted) :
    ∃ ds, lm.tryAquire closesCycle tid pid perm deps = lm.waitFor closesCycle tid ds ∧
      (∀ d, d ∈ ds ∧ d ≠ tid ↔ lm.Conflicts perm pid tid d) ∧
      ∃ d, lm.Conflicts perm pid tid d := by
  have hp := lm.passed closesCycle tid pid perm deps
  generalize lm.tryAquire closesCycle tid pid perm deps = r at hp h
  cases hp with
  | already _ _ => exact absurd rfl h
  | own _ _ => exact absurd rfl h
  | upgrade _ _ => exact absurd rfl h
  | share _ _ => exact absurd rfl h
  | behindOwner holder ho hne hs =>
    have hiff : ∀ d, d ∈ [holder] ∧ d ≠ tid ↔ lm.Conflicts perm pid tid d := by
      intro d
      have hnil := (hx pid).not_shared ho
      cases perm with
      | readOnly =>
        simp only [List.mem_singleton, Conflicts, ho, Option.some.injEq]
        exact ⟨fun h => ⟨h.2, h.1.symm⟩, fun h => ⟨h.2.symm, h.1⟩⟩
      | readWrite =>
        simp only [List.mem_singleton, Conflicts, Holds, ho, hnil, Option.some.injEq,
          List.not_mem_nil, or_false]
        exact ⟨fun h => ⟨h.2, h.1.symm⟩, fun h => ⟨h.2.symm, h.1⟩⟩
    exact ⟨[holder], rfl, hiff, holder, (hiff holder).mp ⟨List.mem_singleton_self _, hne⟩⟩
  | behindReaders hs hne ho =>
    obtain ⟨hnone, hnd⟩ : lm.ownerTrans pid = none ∧ (lm.sharedTrans pid).Nodup := by
      rcases hx pid with ⟨_, _, hnil⟩ | h
      · exact absurd hnil hs
      · exact h
    have hiff : ∀ d, d ∈ lm.sharedTrans pid ∧ d ≠ tid ↔ lm.Conflicts .readWrite pid tid d := by
      intro d
      simp only [Conflicts, Holds, hnone, reduceCtorEq, false_or]
      exact and_comm
    refine ⟨_, rfl, hiff, ?_⟩
    by_contra hno
    -- Only tid itself could then share the page, and a list of distinct sharers is [tid].
    have hall : ∀ d ∈ lm.sharedTrans pid, d = tid := by
      intro d hd
      by_contra hdt
      exact hno ⟨d, (hiff d).mp ⟨hd, hdt⟩⟩
    obtain ⟨a, l, hl⟩ := List.exists_cons_of_ne_nil hs
    rw [hl] at hall hnd hne
    cases l with
    | nil => exact hne (by rw [hall a List.mem_cons_self])
    | cons b l =>
      have hab : a = b := (hall a (by simp)).trans (hall b (by simp)).symm
      simp [hab] at hnd

theorem waitFor_wait {tid : Tid} {ds : List Tid}
    (h : (lm.waitFor closesCycle tid ds).1 = .wait) :
    (addDepsLoop closesCycle tid lm.dependency ds).2 = false ∧
      (lm.waitFor closesCycle tid ds).2.1.dependency =
        (addDepsLoop closesCycle tid lm.dependency ds).1 := by
  unfold waitFor addDeps at h ⊢
  dsimp only at h ⊢
  cases hr : (addDepsLoop closesCycle tid lm.dependency ds).2 <;> simp_all

theorem waitFor_abort {tid : Tid} {ds : List Tid}
    (h : (lm.waitFor closesCycle tid ds).1 = .abort) :
    (addDepsLoop closesCycle tid lm.dependency ds).2 = true ∧
      (lm.waitFor closesCycle tid ds).2.1.dependency =
        removeVertex (addDepsLoop closesCycle tid lm.dependency ds).1 tid := by
  unfold waitFor addDeps at h ⊢
  dsimp only at h ⊢
  cases hr : (addDepsLoop closesCycle tid lm.dependency ds).2 <;> simp_all

/-- The graph stays acyclic through every pass. -/
theorem tryAquire_acyclic (hc : DagEdgeSpec closesCycle) (hx : ∀ p, lm.Exclusive p)
    (hE : Acyclic lm.dependency) (tid : Tid) (pid : Pid) (perm : Permissions) (deps : List Tid) :
    Acyclic (lm.tryAquire closesCycle tid pid perm deps).2.1.dependency := by
  by_cases hg : (lm.tryAquire closesCycle tid pid perm deps).1 = .granted
  · exact hE.subset fun ⟨_, _⟩ h => (tryAquire_granted_dependency hg).1 h
  · obtain ⟨ds, heq, _, _⟩ := tryAquire_blocked hx hg
    have hL := addDepsLoop_acyclic hc tid ds hE
    rw [heq] at hg ⊢
    cases ho : (lm.waitFor closesCycle tid ds).1 with
    | granted => exact absurd ho hg
    | wait => rw [(waitFor_wait ho).2]; exact hL
    | abort =>
      rw [(waitFor_abort ho).2]
      exact hL.subset fun _ h => List.mem_of_mem_filter h

end LockManager

end Courses.SimpleDb
