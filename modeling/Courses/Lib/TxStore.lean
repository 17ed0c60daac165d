import Mathlib.Tactic

/-!
# A transactional store

What a store of pages promises its transactions: a write is pending until its
transaction ends, a commit makes the pending writes of a transaction part of the
committed contents, an abort forgets them. Contents are functions from slots to
values; a key without contents does not exist yet.
-/
set_option linter.unusedSectionVars false

namespace Courses.Lib

variable {Tid Key Slot Val : Type}

structure Write (Tid Key Slot Val : Type) where
  tid : Tid
  key : Key
  slot : Slot
  value : Val

structure TxStore (Tid Key Slot Val : Type) where
  committed : Key → Option (Slot → Val)
  pending : List (Write Tid Key Slot Val)

variable [DecidableEq Tid] [DecidableEq Key] [DecidableEq Slot]

/-- The contents after a list of writes to one key. -/
def applyWrites (ws : List (Write Tid Key Slot Val)) (c : Slot → Val) : Slot → Val :=
  ws.foldl (fun c w => Function.update c w.slot w.value) c

namespace TxStore

/-- The pending writes to a key, in the order they were made. -/
def pendingAt (st : TxStore Tid Key Slot Val) (k : Key) : List (Write Tid Key Slot Val) :=
  st.pending.filter (·.key = k)

/-- The contents a reader of the current state sees. -/
def visible (st : TxStore Tid Key Slot Val) (k : Key) : Option (Slot → Val) :=
  (st.committed k).map (applyWrites (st.pendingAt k))

def write (st : TxStore Tid Key Slot Val) (w : Write Tid Key Slot Val) :
    TxStore Tid Key Slot Val :=
  { st with pending := st.pending ++ [w] }

/-- A key that did not exist gets its first contents at once. -/
def create (st : TxStore Tid Key Slot Val) (k : Key) (c : Slot → Val) :
    TxStore Tid Key Slot Val :=
  { st with committed := Function.update st.committed k (some c) }

def commit (st : TxStore Tid Key Slot Val) (tid : Tid) : TxStore Tid Key Slot Val where
  committed k := (st.committed k).map (applyWrites ((st.pendingAt k).filter (·.tid = tid)))
  pending := st.pending.filter (·.tid ≠ tid)

def abort (st : TxStore Tid Key Slot Val) (tid : Tid) : TxStore Tid Key Slot Val :=
  { st with pending := st.pending.filter (·.tid ≠ tid) }

variable {st : TxStore Tid Key Slot Val} {tid : Tid} {k : Key}

/-- Only `tid` has pending writes to the key. -/
def OnlyBy (st : TxStore Tid Key Slot Val) (tid : Tid) (k : Key) : Prop :=
  ∀ w ∈ st.pending, w.key = k → w.tid = tid

/-- `tid` has no pending writes to the key. -/
def NotBy (st : TxStore Tid Key Slot Val) (tid : Tid) (k : Key) : Prop :=
  ∀ w ∈ st.pending, w.key = k → w.tid ≠ tid

theorem mem_pendingAt {w : Write Tid Key Slot Val} :
    w ∈ st.pendingAt k ↔ w ∈ st.pending ∧ w.key = k := by
  simp [pendingAt]

theorem pendingAt_eq_nil (h : ∀ w ∈ st.pending, w.key ≠ k) : st.pendingAt k = [] := by
  refine List.eq_nil_iff_forall_not_mem.mpr fun w hw => ?_
  obtain ⟨hw, hk⟩ := mem_pendingAt.mp hw
  exact h w hw hk

theorem visible_of_pendingAt_nil (h : st.pendingAt k = []) : st.visible k = st.committed k := by
  rw [visible, h]
  exact Option.map_id_apply

theorem pendingAt_write (w : Write Tid Key Slot Val) :
    (st.write w).pendingAt k = if w.key = k then st.pendingAt k ++ [w] else st.pendingAt k := by
  by_cases h : w.key = k <;> simp [write, pendingAt, h]

/-- A write shows at its own slot of its own key. -/
theorem visible_write (w : Write Tid Key Slot Val) : (st.write w).visible k =
    if w.key = k then (st.visible k).map fun c => Function.update c w.slot w.value
    else st.visible k := by
  rw [visible, visible, pendingAt_write]
  split_ifs
  · rw [Option.map_map]
    congr 1
    funext c
    simp [applyWrites]
  · rfl

theorem pendingAt_filter (p : Write Tid Key Slot Val → Bool) (c : Key → Option (Slot → Val)) :
    (⟨c, st.pending.filter p⟩ : TxStore Tid Key Slot Val).pendingAt k =
      (st.pendingAt k).filter p := by
  simp only [pendingAt, List.filter_filter]
  congr 1
  funext w
  exact Bool.and_comm _ _

theorem committed_create (c : Slot → Val) (j : Key) :
    (st.create k c).committed j = if j = k then some c else st.committed j :=
  Function.update_apply st.committed k (some c) j

theorem committed_commit_none (h : st.committed k = none) : (st.commit tid).committed k = none := by
  simp only [commit, h, Option.map_none]

theorem committed_commit_onlyBy (h : st.OnlyBy tid k) :
    (st.commit tid).committed k = st.visible k := by
  have hall : (st.pendingAt k).filter (·.tid = tid) = st.pendingAt k := by
    refine List.filter_eq_self.mpr fun w hw => ?_
    obtain ⟨hw, hk⟩ := mem_pendingAt.mp hw
    simpa using h w hw hk
  simp only [commit, hall, visible]

theorem committed_commit_notBy (h : st.NotBy tid k) :
    (st.commit tid).committed k = st.committed k := by
  have hnone : (st.pendingAt k).filter (·.tid = tid) = [] := by
    refine List.filter_eq_nil_iff.mpr fun w hw => ?_
    obtain ⟨hw, hk⟩ := mem_pendingAt.mp hw
    simpa using h w hw hk
  simp only [commit, hnone]
  exact Option.map_id_apply

theorem pendingAt_dropped_onlyBy (h : st.OnlyBy tid k) :
    (st.pendingAt k).filter (·.tid ≠ tid) = [] := by
  refine List.filter_eq_nil_iff.mpr fun w hw => ?_
  obtain ⟨hw, hk⟩ := mem_pendingAt.mp hw
  simpa using h w hw hk

theorem pendingAt_dropped_notBy (h : st.NotBy tid k) :
    (st.pendingAt k).filter (·.tid ≠ tid) = st.pendingAt k := by
  refine List.filter_eq_self.mpr fun w hw => ?_
  obtain ⟨hw, hk⟩ := mem_pendingAt.mp hw
  simpa using h w hw hk

theorem visible_commit_onlyBy (h : st.OnlyBy tid k) : (st.commit tid).visible k = st.visible k := by
  have hnil : (st.commit tid).pendingAt k = [] :=
    (pendingAt_filter _ _).trans (pendingAt_dropped_onlyBy h)
  rw [visible_of_pendingAt_nil hnil, committed_commit_onlyBy h]

theorem visible_commit_notBy (h : st.NotBy tid k) : (st.commit tid).visible k = st.visible k := by
  have hsame : (st.commit tid).pendingAt k = st.pendingAt k :=
    (pendingAt_filter _ _).trans (pendingAt_dropped_notBy h)
  rw [visible, hsame, committed_commit_notBy h, visible]

theorem visible_abort_onlyBy (h : st.OnlyBy tid k) :
    (st.abort tid).visible k = st.committed k :=
  visible_of_pendingAt_nil ((pendingAt_filter _ _).trans (pendingAt_dropped_onlyBy h))

theorem visible_abort_notBy (h : st.NotBy tid k) : (st.abort tid).visible k = st.visible k := by
  have hsame : (st.abort tid).pendingAt k = st.pendingAt k :=
    (pendingAt_filter _ _).trans (pendingAt_dropped_notBy h)
  rw [visible, hsame, visible]
  rfl

end TxStore

end Courses.Lib
