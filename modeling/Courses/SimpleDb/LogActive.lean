import Courses.SimpleDb.LogRuns

/-!
# The active transactions

Which transactions are active after a sequence of calls, and when the map of first records
says so. A truncation enters every transaction whose begin it copies, also
one that has finished: the map stays exact as long as no checkpoint finds a finished transaction
that began after one that is still active.
-/
namespace Courses.SimpleDb

open Courses.Lib RandomAccessFile

variable {C : PageClasses} {els : LogFile.IterationOrder}

/-! ## Sequences of calls -/

namespace LogCall

/-- The transaction that a call begins. -/
def begun : LogCall C → Option UInt64
  | .xactionBegin tid => some tid
  | _ => none

/-- The transaction that a call finishes. -/
def finished : LogCall C → Option UInt64
  | .commit tid | .abort tid => some tid
  | _ => none

/-- The transaction that must be active for a call. -/
def needs : LogCall C → Option UInt64
  | .write tid _ _ | .commit tid | .abort tid => some tid
  | _ => none

end LogCall

/-- The transactions begun by the calls, in order. -/
def begunBy (calls : List (LogCall C)) : List UInt64 := calls.filterMap LogCall.begun

def finishedBy (calls : List (LogCall C)) : List UInt64 := calls.filterMap LogCall.finished

/-- The transaction has begun, and neither committed nor aborted. -/
def Active (calls : List (LogCall C)) (tid : UInt64) : Prop :=
  tid ∈ begunBy calls ∧ tid ∉ finishedBy calls

/-- Each transaction begins at most once, and only active ones write, commit or abort. -/
structure Legal (calls : List (LogCall C)) : Prop where
  once : (begunBy calls).Nodup
  active : ∀ pre c tid, pre ++ [c] <+: calls → c.needs = some tid → Active pre tid

/-- No transaction that began after an active one has finished. -/
def Orderly (calls : List (LogCall C)) : Prop :=
  ∀ t u, [t, u].Sublist (begunBy calls) → Active calls t → Active calls u

theorem Legal.mono {pre calls : List (LogCall C)} (h : Legal calls) (hpre : pre <+: calls) :
    Legal pre :=
  ⟨h.once.sublist (hpre.sublist.filterMap _), fun pre' c tid hpre' hneeds =>
    h.active pre' c tid (hpre'.trans hpre) hneeds⟩

@[simp] theorem begunBy_append (calls calls' : List (LogCall C)) :
    begunBy (calls ++ calls') = begunBy calls ++ begunBy calls' := List.filterMap_append

@[simp] theorem finishedBy_append (calls calls' : List (LogCall C)) :
    finishedBy (calls ++ calls') = finishedBy calls ++ finishedBy calls' := List.filterMap_append

/-- What one more call does to the active transactions. -/
theorem active_concat {calls : List (LogCall C)} {c : LogCall C} {t : UInt64} :
    Active (calls ++ [c]) t ↔
      (t ∈ begunBy calls ∨ c.begun = some t) ∧ t ∉ finishedBy calls ∧ c.finished ≠ some t := by
  simp [Active, begunBy, finishedBy]

instance (calls : List (LogCall C)) (tid : UInt64) : Decidable (Active calls tid) :=
  inferInstanceAs (Decidable (tid ∈ begunBy calls ∧ tid ∉ finishedBy calls))

theorem Legal.not_begun {calls : List (LogCall C)} {c : LogCall C} {tid : UInt64}
    (h : Legal (calls ++ [c])) (hc : c.begun = some tid) : tid ∉ begunBy calls := by
  intro hmem
  have honce := h.once
  rw [begunBy_append, List.nodup_append] at honce
  exact honce.2.2 tid hmem tid (by simp [begunBy, hc]) rfl

theorem legal_nil : Legal ([] : List (LogCall C)) :=
  ⟨List.nodup_nil, fun pre c tid hpre _ => absurd (List.prefix_nil.1 hpre) (by simp)⟩

theorem Legal.append {calls : List (LogCall C)} {c : LogCall C} (h : Legal calls)
    (honce : ∀ tid ∈ c.begun, tid ∉ begunBy calls) (hneeds : ∀ tid ∈ c.needs, Active calls tid) :
    Legal (calls ++ [c]) := by
  refine ⟨?_, fun pre x tid hpre hx => ?_⟩
  · have hc : begunBy [c] = c.begun.toList := by
      cases hb : c.begun <;> simp [begunBy, hb]
    rw [begunBy_append, hc]
    refine h.once.append (by cases c.begun <;> simp) fun t ht htc => ?_
    exact honce t (by simpa using htc) ht
  · obtain heq | hpre := List.prefix_concat_iff.1 hpre
    · obtain ⟨rfl, hxc⟩ := List.append_inj' heq rfl
      obtain rfl := List.singleton_inj.1 hxc
      exact hneeds tid hx
    · exact h.active pre x tid hpre hx

/-- The same with conditions that can be evaluated. -/
theorem Legal.append_of_all {calls : List (LogCall C)} {c : LogCall C} (h : Legal calls)
    (honce : c.begun.all fun tid => decide (tid ∉ begunBy calls))
    (hneeds : c.needs.all fun tid => decide (Active calls tid)) : Legal (calls ++ [c]) := by
  refine h.append (fun tid htid => ?_) fun tid htid => ?_
  · exact of_decide_eq_true ((Option.all_eq_true _ _).1 honce tid htid)
  · exact of_decide_eq_true ((Option.all_eq_true _ _).1 hneeds tid htid)

theorem finished_begun {calls : List (LogCall C)} (h : Legal calls) {tid : UInt64}
    (htid : tid ∈ finishedBy calls) : tid ∈ begunBy calls := by
  induction calls using List.reverseRecOn with
  | nil => cases htid
  | append_singleton calls c ih =>
    have hpre : calls <+: calls ++ [c] := List.prefix_append _ _
    rw [finishedBy_append, List.mem_append] at htid
    rw [begunBy_append, List.mem_append]
    obtain htid | htid := htid
    · exact .inl (ih (h.mono hpre) htid)
    · have hneeds : c.needs = some tid := by
        cases c with
        | commit t | abort t =>
          simpa [finishedBy, LogCall.finished, LogCall.needs, eq_comm] using htid
        | _ => cases htid
      exact .inl (h.active calls c tid (List.prefix_refl _) hneeds).1

/-! ## Begins in the log -/

def beginTids (rs : List Record) : List UInt64 := rs.filterMap Record.begun

@[simp] theorem beginTids_append (rs rs' : List Record) :
    beginTids (rs ++ rs') = beginTids rs ++ beginTids rs' := List.filterMap_append

theorem mem_beginTids {rs : List Record} {tid : UInt64} :
    tid ∈ beginTids rs ↔ Record.begin tid ∈ rs := by
  simp [beginTids, List.mem_filterMap, Record.begun_eq_some]

theorem beginTids_moved (min : UInt64) (rs : List Record) :
    beginTids (rs.map (Record.moved min)) = beginTids rs := by
  simp [beginTids, List.filterMap_map]

namespace Log

open LogFile

variable {a : Log}

theorem mem_keys_enter {m : OffsetMap} {tid offset t : UInt64} :
    t ∈ (enter m tid offset).map Prod.fst ↔ t = tid ∨ t ∈ m.map Prod.fst := by
  simp only [List.mem_map, mem_enter]
  constructor
  · rintro ⟨e, rfl | ⟨he, -⟩, rfl⟩
    · exact .inl rfl
    · exact .inr ⟨e, he, rfl⟩
  · rintro (rfl | ⟨e, he, rfl⟩)
    · exact ⟨(t, offset), .inl rfl, rfl⟩
    · by_cases htid : e.1 = tid
      · exact ⟨(tid, offset), .inl rfl, htid.symm⟩
      · exact ⟨e, .inr ⟨he, htid⟩, rfl⟩

theorem mem_keys_remove {m : OffsetMap} {tid t : UInt64} :
    t ∈ (m.filter (·.1 ≠ tid)).map Prod.fst ↔ t ∈ m.map Prod.fst ∧ t ≠ tid := by
  simp only [List.mem_map, List.mem_filter, decide_eq_true_eq]
  constructor
  · rintro ⟨e, ⟨he, hne⟩, rfl⟩
    exact ⟨⟨e, he, rfl⟩, hne⟩
  · rintro ⟨⟨e, he, rfl⟩, hne⟩
    exact ⟨e, ⟨he, hne⟩, rfl⟩

theorem mem_keys_registerAll {m : OffsetMap} (start : ℕ) (rs : List Record) {t : UInt64} :
    t ∈ (registerAll m (located start rs)).map Prod.fst ↔
      t ∈ m.map Prod.fst ∨ t ∈ beginTids rs := by
  induction rs generalizing m start with
  | nil => simp [registerAll, located, beginTids]
  | cons r rs ih =>
    have hstep := ih (m := r.register start m) (start + r.size)
    rw [registerAll, located, List.foldl_cons]
    rw [registerAll] at hstep
    rw [hstep]
    cases r with
    | begin tid =>
      simp only [Record.register, mem_keys_enter, beginTids, List.filterMap_cons, Record.begun,
        List.mem_cons]
      tauto
    | _ => rfl

theorem Sound.mem_beginTids (ha : a.Sound C) {t : UInt64} (ht : t ∈ a.firsts.map Prod.fst) :
    t ∈ beginTids a.records := by
  obtain ⟨e, he, rfl⟩ := List.mem_map.1 ht
  obtain ⟨l, l', hrecords, -⟩ := mem_located.1 (ha.begins e he)
  rw [SimpleDb.mem_beginTids, hrecords]
  simp

/-- A checkpoint keeps a part of the begins, with all of the transactions in the map. -/
theorem Sound.checkpoint_begins (ha : a.Sound C) (els : IterationOrder) :
    ∃ dropped kept, beginTids a.records = dropped ++ kept ∧
      beginTids (a.next els (.checkpoint : LogCall C)).records = kept ∧
      (∀ t, t ∈ (a.next els (.checkpoint : LogCall C)).firsts.map Prod.fst ↔
        t ∈ a.firsts.map Prod.fst ∨ t ∈ kept) ∧
      (∀ t ∈ a.firsts.map Prod.fst, t ∈ kept) ∧
      (kept = [] ∨ ∃ t kept', kept = t :: kept' ∧ t ∈ a.firsts.map Prod.fst) := by
  obtain ⟨l, r, hrecords, hmin, hfirst⟩ := ha.exists_split els
  have htids : beginTids (r ++ [Record.checkpoint (els.1 a.firsts)]) = beginTids r := by
    rw [beginTids_append]
    exact List.append_nil _
  refine ⟨beginTids l, beginTids r, by rw [hrecords, beginTids_append], ?_, fun t => ?_,
    fun t ht => ?_, ?_⟩
  · rw [next_checkpoint hrecords hmin, beginTids_moved, htids]
  · rw [next_checkpoint hrecords hmin, mem_keys_registerAll, htids]
  · obtain ⟨e, he, rfl⟩ := List.mem_map.1 ht
    obtain ⟨l', r', rfl, -⟩ := mem_located.1 (ha.begins_kept hrecords hmin he)
    simp [SimpleDb.mem_beginTids]
  · obtain rfl | ⟨t, r', rfl, ht⟩ := hfirst
    · exact .inl rfl
    · exact .inr ⟨t, beginTids r', rfl, ht⟩

/-- The begins in the log are the last ones of the calls. -/
theorem beginTids_suffix {calls : List (LogCall C)} (h : Legal calls)
    (hsound : ∀ pre, pre <+: calls → (after els pre).Sound C) :
    beginTids (after els calls).records <:+ begunBy calls := by
  induction calls using List.reverseRecOn with
  | nil => exact List.suffix_refl _
  | append_singleton calls c ih =>
    have hpre : calls <+: calls ++ [c] := List.prefix_append _ _
    have hsuffix := ih (h.mono hpre) fun pre hp => hsound pre (hp.trans hpre)
    have hcalls := hsound calls hpre
    rw [after_append, begunBy_append]
    obtain ⟨front, hfront⟩ := hsuffix
    cases c with
    | xactionBegin tid =>
      have hnot : tid ∉ (after els calls).firsts.map Prod.fst := by
        intro htid
        exact h.not_begun rfl (hfront ▸ List.mem_append_right _ (hcalls.mem_beginTids htid))
      simp only [next, if_neg hnot]
      refine ⟨front, ?_⟩
      rw [beginTids_append, ← List.append_assoc, hfront]
      rfl
    | checkpoint =>
      obtain ⟨dropped, kept, hbegins, hkept, -⟩ := hcalls.checkpoint_begins els
      refine ⟨front ++ dropped, ?_⟩
      rw [hkept, List.append_assoc, ← hbegins, hfront]
      exact (List.append_nil _).symm
    | write tid before after =>
      refine ⟨front, ?_⟩
      simp only [next, beginTids_append, ← List.append_assoc, hfront]
      rfl
    | commit tid =>
      refine ⟨front, ?_⟩
      simp only [next, beginTids_append, ← List.append_assoc, hfront]
      rfl
    | abort tid =>
      refine ⟨front, ?_⟩
      simp only [next, beginTids_append, ← List.append_assoc, hfront]
      rfl

/-! ## When the map is exact -/

/-- The map has exactly the active transactions. -/
def ExactFor (a : Log) (calls : List (LogCall C)) : Prop :=
  ∀ tid, tid ∈ a.firsts.map Prod.fst ↔ Active calls tid

/-- A checkpoint keeps the map exact precisely if it comes at an orderly moment. -/
theorem exactFor_checkpoint_iff {calls : List (LogCall C)} (h : Legal calls)
    (hsound : ∀ pre, pre <+: calls → (after els pre).Sound C)
    (hexact : (after els calls).ExactFor calls) :
    (after els (calls ++ [LogCall.checkpoint])).ExactFor (calls ++ [LogCall.checkpoint]) ↔
      Orderly calls := by
  have hactive : ∀ tid, Active (calls ++ [LogCall.checkpoint]) tid ↔ Active calls tid := by
    intro tid
    rw [active_concat]
    simp [Active, LogCall.begun, LogCall.finished]
  obtain ⟨front, hfront⟩ := beginTids_suffix h hsound
  obtain ⟨dropped, kept, hbegins, -, hkeys, hin, hfirst⟩ :=
    (hsound calls (List.prefix_refl _)).checkpoint_begins els
  have hbegun : begunBy calls = (front ++ dropped) ++ kept := by
    rw [← hfront, hbegins, List.append_assoc]
  rw [after_append, ExactFor]
  simp only [hkeys, hactive]
  constructor
  · intro hall t u htu ht
    have htkept := hin t ((hexact t).2 ht)
    have hnot : t ∉ front ++ dropped := by
      have honce := h.once
      rw [hbegun, List.nodup_append] at honce
      exact fun hmem => honce.2.2 t hmem t htkept rfl
    rw [hbegun] at htu
    obtain ⟨l₁, l₂, hl, hl₁, hl₂⟩ := List.sublist_append_iff.1 htu
    cases l₁ with
    | nil =>
      rw [List.nil_append] at hl
      exact (hall u).1 (.inr (hl₂.subset (hl ▸ by simp)))
    | cons x l₁ =>
      obtain ⟨rfl, -⟩ := List.cons.inj hl
      exact absurd (hl₁.subset (by simp)) hnot
  · intro horderly tid
    refine ⟨fun htid => ?_, fun htid => .inl ((hexact tid).2 htid)⟩
    obtain htid | htid := htid
    · exact (hexact tid).1 htid
    · obtain rfl | ⟨t, kept', rfl, ht⟩ := hfirst
      · cases htid
      · obtain rfl | htid := List.mem_cons.1 htid
        · exact (hexact tid).1 ht
        · refine horderly t tid ?_ ((hexact t).1 ht)
          rw [hbegun]
          exact ((List.singleton_sublist.2 htid).cons_cons t).trans (List.sublist_append_right _ _)

/-- The other calls keep the map exact. -/
theorem exactFor_append {calls : List (LogCall C)} {c : LogCall C} (h : Legal (calls ++ [c]))
    (hexact : (after els calls).ExactFor calls) (hc : c ≠ .checkpoint) :
    (after els (calls ++ [c])).ExactFor (calls ++ [c]) := by
  have hcalls : Legal calls := h.mono (List.prefix_append _ _)
  intro t
  rw [after_append]
  cases c with
  | checkpoint => exact absurd rfl hc
  | xactionBegin tid =>
    have hnew : tid ∉ begunBy calls := h.not_begun rfl
    have hnot : tid ∉ (after els calls).firsts.map Prod.fst := fun htid =>
      hnew ((hexact tid).1 htid).1
    have hunfinished : tid ∉ finishedBy calls := fun htid => hnew (finished_begun hcalls htid)
    have hfinished : (LogCall.xactionBegin tid : LogCall C).finished ≠ some t := by
      simp [LogCall.finished]
    simp only [next, if_neg hnot, mem_keys_enter, hexact t, active_concat]
    constructor
    · rintro (rfl | ht)
      · exact ⟨.inr rfl, hunfinished, hfinished⟩
      · exact ⟨.inl ht.1, ht.2, hfinished⟩
    · rintro ⟨ht | ht, hnf, -⟩
      · exact .inr ⟨ht, hnf⟩
      · exact .inl (Option.some.inj ht).symm
  | write tid before after =>
    have hactive : Active (calls ++ [LogCall.write tid before after]) t ↔ Active calls t := by
      rw [active_concat]
      simp [Active, LogCall.begun, LogCall.finished]
    rw [hactive]
    exact hexact t
  | commit tid | abort tid =>
    simp only [next, mem_keys_remove, hexact t, active_concat]
    simp [Active, LogCall.begun, LogCall.finished, eq_comm, and_assoc]

theorem exactFor_iff {calls : List (LogCall C)} (h : Legal calls)
    (hsound : ∀ pre, pre <+: calls → (after els pre).Sound C) :
    (∀ pre, pre <+: calls → (after els pre).ExactFor pre) ↔
      ∀ pre, pre ++ [LogCall.checkpoint] <+: calls → Orderly pre := by
  constructor
  · intro hexact pre hpre
    have hcalls : pre <+: calls := (List.prefix_append _ _).trans hpre
    exact (exactFor_checkpoint_iff (h.mono hcalls) (fun p hp => hsound p (hp.trans hcalls))
      (hexact pre hcalls)).1 (hexact _ hpre)
  · intro horderly pre hpre
    induction pre using List.reverseRecOn with
    | nil =>
      intro tid
      simp [after, empty, Active, begunBy]
    | append_singleton pre c ih =>
      have hcalls : pre <+: calls := (List.prefix_append _ _).trans hpre
      have hexact := ih hcalls
      by_cases hc : c = .checkpoint
      · subst hc
        exact (exactFor_checkpoint_iff (h.mono hcalls) (fun p hp => hsound p (hp.trans hcalls))
          hexact).2 (horderly pre hpre)
      · exact exactFor_append (h.mono hpre) hexact hc

end Log

namespace LogFile

/-- The map names exactly the active transactions, each with the offset of its begin in the
file. -/
structure Exact (s : LogFile) (calls : List (LogCall C)) : Prop where
  nodup : (s.tidToFirstLogRecord.map Prod.fst).Nodup
  keys : ∀ tid, tid ∈ s.tidToFirstLogRecord.map Prod.fst ↔ Active calls tid
  begins : ∀ e ∈ s.tidToFirstLogRecord, ∃ h rs, s.raf.bytes = fileOf h rs ∧
    (e.2.toNat, Record.begin e.1) ∈ located 8 rs

/-- A run that does not exhaust the room has runs of all its prefixes. -/
theorem run_ne_exhausted {s₀ : LogFile} {pre calls : List (LogCall C)}
    (hpre : pre <+: calls) (hrun : run els s₀ calls ≠ .error .exhausted) :
    run els s₀ pre ≠ .error .exhausted := by
  obtain ⟨rest, rfl⟩ := hpre
  intro hfull
  apply hrun
  rw [run, List.foldlM_append]
  change run els s₀ pre >>= _ = _
  rw [hfull]
  rfl

/-- Two transactions one after the other, and a checkpoint. -/
def oneByOne : List (LogCall heapPages) :=
  [.xactionBegin 1, .commit 1, .xactionBegin 2, .abort 2, .checkpoint]

theorem oneByOne_legal : Legal oneByOne := by
  have h₁ : Legal ([] ++ [.xactionBegin 1] : List (LogCall heapPages)) :=
    legal_nil.append_of_all (by decide) (by decide)
  have h₂ := h₁.append_of_all (c := .commit 1) (by decide) (by decide)
  have h₃ := h₂.append_of_all (c := .xactionBegin 2) (by decide) (by decide)
  have h₄ := h₃.append_of_all (c := .abort 2) (by decide) (by decide)
  exact h₄.append_of_all (c := .checkpoint) (by decide) (by decide)

/-- Two transactions, of which the second has committed at the checkpoint. -/
def finishedSecond : List (LogCall heapPages) :=
  [.xactionBegin 1, .xactionBegin 2, .commit 2, .checkpoint]

theorem finishedSecond_legal : Legal finishedSecond := by
  have h₁ : Legal ([] ++ [.xactionBegin 1] : List (LogCall heapPages)) :=
    legal_nil.append_of_all (by decide) (by decide)
  have h₂ := h₁.append_of_all (c := .xactionBegin 2) (by decide) (by decide)
  have h₃ := h₂.append_of_all (c := .commit 2) (by decide) (by decide)
  exact h₃.append_of_all (c := .checkpoint) (by decide) (by decide)

end LogFile

end Courses.SimpleDb
