import Courses.SimpleDb.LogTruncation

/-!
# Runs of the log

The log as a header, its records and the map of first records, and the calls as steps on
these. The code refines it, so that what holds of the steps holds after every sequence of
calls: the file stays well formed, and the map names the active transactions
as long as no checkpoint finds the begin of a finished transaction behind that of
an active one.
-/
namespace Courses.SimpleDb

open Courses.Lib RandomAccessFile

/-- The abstract log. -/
structure Log where
  header : UInt64
  records : List Record
  firsts : OffsetMap

namespace Record

def isCheckpoint : Record → Bool
  | .checkpoint _ => true
  | _ => false

/-- The transaction that begins. -/
def begun : Record → Option UInt64
  | .begin tid => some tid
  | _ => none

theorem begun_eq_some {r : Record} {tid : UInt64} : r.begun = some tid ↔ r = .begin tid := by
  cases r <;> simp [begun]

@[simp] theorem begun_moved (min : UInt64) (r : Record) : (r.moved min).begun = r.begun := by
  cases r <;> rfl

@[simp] theorem isCheckpoint_moved (min : UInt64) (r : Record) :
    (r.moved min).isCheckpoint = r.isCheckpoint := by
  cases r <;> rfl

end Record

variable {C : PageClasses} {els : LogFile.IterationOrder}

namespace Log

open LogFile

/-- What a call does. -/
def next (els : IterationOrder) (a : Log) : LogCall C → Log
  | .xactionBegin tid =>
    if tid ∈ a.firsts.map Prod.fst then a
    else ⟨a.header, a.records ++ [.begin tid], enter a.firsts tid (.ofNat (endOf 8 a.records))⟩
  | .write tid before after =>
    ⟨a.header, a.records ++ [.update tid (C.image before) (C.image after)], a.firsts⟩
  | .commit tid => ⟨a.header, a.records ++ [.commit tid], a.firsts.filter (·.1 ≠ tid)⟩
  | .abort tid => ⟨a.header, a.records ++ [.abort tid], a.firsts.filter (·.1 ≠ tid)⟩
  | .checkpoint =>
    let min := neededFrom (endOf 8 a.records) (els.1 a.firsts)
    let kept := recordsFrom min (a.records ++ [.checkpoint (els.1 a.firsts)])
    ⟨moved (.ofNat min) (.ofNat (endOf 8 a.records)), kept.map (Record.moved (.ofNat min)),
      registerAll a.firsts (located 8 kept)⟩

/-- The header is −1, or the offset of the last checkpoint, whose transactions all begin where it
says. -/
def NamesLastCheckpoint (h : UInt64) (rs : List Record) : Prop :=
  (h = noCheckpointId ∧ ∀ r ∈ rs, r.isCheckpoint = false) ∨
    ∃ l entries r, rs = l ++ .checkpoint entries :: r ∧ (∀ x ∈ r, x.isCheckpoint = false) ∧
      h.toNat = endOf 8 l ∧ ∀ e ∈ entries, (e.2.toNat, Record.begin e.1) ∈ located 8 rs

/-- The invariant of the log. -/
structure Sound (C : PageClasses) (a : Log) : Prop where
  few : a.firsts.length < 2 ^ 31
  nodup : (a.firsts.map Prod.fst).Nodup
  readable : ∀ r ∈ a.records, r.Readable C
  names : NamesLastCheckpoint a.header a.records
  begins : ∀ e ∈ a.firsts, (e.2.toNat, Record.begin e.1) ∈ located 8 a.records

theorem NamesLastCheckpoint.append {h : UInt64} {rs : List Record} {r : Record}
    (hnames : NamesLastCheckpoint h rs) (hr : r.isCheckpoint = false) :
    NamesLastCheckpoint h (rs ++ [r]) := by
  obtain ⟨hh, hrs⟩ | ⟨l, entries, r', rfl, hr', hh, hentries⟩ := hnames
  · refine .inl ⟨hh, fun x hx => ?_⟩
    obtain hx | hx := List.mem_append.1 hx
    · exact hrs x hx
    · rwa [List.mem_singleton.1 hx]
  · refine .inr ⟨l, entries, r' ++ [r], by simp, fun x hx => ?_, hh, fun e he => ?_⟩
    · obtain hx | hx := List.mem_append.1 hx
      · exact hr' x hx
      · rwa [List.mem_singleton.1 hx]
    · rw [located_append]
      exact List.mem_append_left _ (hentries e he)

/-- A record that is no checkpoint, and a smaller map. -/
theorem Sound.append {a : Log} (ha : a.Sound C) (r : Record) (hr : r.Readable C)
    (hcp : r.isCheckpoint = false) {m : OffsetMap} (hm : m.Sublist a.firsts) :
    Sound C ⟨a.header, a.records ++ [r], m⟩ := by
  refine ⟨Nat.lt_of_le_of_lt hm.length_le ha.few, ha.nodup.sublist (hm.map _), fun x hx => ?_,
    ha.names.append hcp, fun e he => ?_⟩
  · obtain hx | hx := List.mem_append.1 hx
    · exact ha.readable x hx
    · rwa [List.mem_singleton.1 hx]
  · rw [located_append]
    exact List.mem_append_left _ (ha.begins e (hm.subset he))

theorem mem_enter {m : OffsetMap} {tid offset : UInt64} {e : UInt64 × UInt64} :
    e ∈ enter m tid offset ↔ e = (tid, offset) ∨ e ∈ m ∧ e.1 ≠ tid := by
  simp [enter]

theorem nodup_enter {m : OffsetMap} (hm : (m.map Prod.fst).Nodup) (tid offset : UInt64) :
    ((enter m tid offset).map Prod.fst).Nodup := by
  rw [enter, List.map_cons, List.nodup_cons]
  refine ⟨?_, hm.sublist (List.filter_sublist.map _)⟩
  simp

theorem Sound.begin {a : Log} (ha : a.Sound C) {tid : UInt64}
    (hlt : endOf 8 a.records < 2 ^ 63)
    (hfew : (enter a.firsts tid (.ofNat (endOf 8 a.records))).length < 2 ^ 31) :
    Sound C ⟨a.header, a.records ++ [.begin tid],
      enter a.firsts tid (.ofNat (endOf 8 a.records))⟩ := by
  have hnat : (UInt64.ofNat (endOf 8 a.records)).toNat = endOf 8 a.records :=
    UInt64.toNat_ofNat_of_lt' (show endOf 8 a.records < 2 ^ 64 by omega)
  refine ⟨hfew, nodup_enter ha.nodup tid _, fun x hx => ?_, ha.names.append rfl, fun e he => ?_⟩
  · obtain hx | hx := List.mem_append.1 hx
    · exact ha.readable x hx
    · rw [List.mem_singleton.1 hx]
      trivial
  · rw [located_append]
    obtain rfl | ⟨he, -⟩ := mem_enter.1 he
    · rw [hnat]
      exact List.mem_append_right _ (by simp [located])
    · exact List.mem_append_left _ (ha.begins e he)

/-! ### A checkpoint -/

/-- The checkpoint cuts the records at their beginning, or at the begin of a transaction in the
map. -/
theorem Sound.exists_split {a : Log} (ha : a.Sound C) (els : IterationOrder) :
    ∃ l r, a.records = l ++ r ∧ neededFrom (endOf 8 a.records) (els.1 a.firsts) = endOf 8 l ∧
      (r = [] ∨ ∃ tid r', r = .begin tid :: r' ∧ tid ∈ a.firsts.map Prod.fst) := by
  obtain hcp | ⟨e, he, hmin⟩ := neededFrom_eq (endOf 8 a.records) (els.1 a.firsts)
  · exact ⟨a.records, [], (List.append_nil _).symm, hcp, .inl rfl⟩
  · have hmem := (els.2 a.firsts).mem_iff.1 he
    obtain ⟨l, r', hrecords, hoffset⟩ := mem_located.1 (ha.begins e hmem)
    exact ⟨l, .begin e.1 :: r', hrecords, hmin.trans hoffset,
      .inr ⟨e.1, r', rfl, List.mem_map_of_mem hmem⟩⟩

variable {a : Log} {l r : List Record}

theorem next_checkpoint (hrecords : a.records = l ++ r)
    (hmin : neededFrom (endOf 8 a.records) (els.1 a.firsts) = endOf 8 l) :
    a.next els (.checkpoint : LogCall C) =
      ⟨moved (.ofNat (endOf 8 l)) (.ofNat (endOf 8 a.records)),
        (r ++ [Record.checkpoint (els.1 a.firsts)]).map (Record.moved (.ofNat (endOf 8 l))),
        registerAll a.firsts (located 8 (r ++ [Record.checkpoint (els.1 a.firsts)]))⟩ := by
  have hkept : recordsFrom (endOf 8 l) (a.records ++ [Record.checkpoint (els.1 a.firsts)]) =
      r ++ [Record.checkpoint (els.1 a.firsts)] := by
    rw [hrecords, List.append_assoc, recordsFrom_endOf]
  simp only [next, hmin, hkept]

/-- The transactions in the map begin in the part that is kept. -/
theorem Sound.begins_kept (ha : a.Sound C) (hrecords : a.records = l ++ r)
    (hmin : neededFrom (endOf 8 a.records) (els.1 a.firsts) = endOf 8 l) {e : UInt64 × UInt64}
    (he : e ∈ a.firsts) : (e.2.toNat, Record.begin e.1) ∈ located (endOf 8 l) r := by
  have hle : endOf 8 l ≤ e.2.toNat :=
    hmin ▸ neededFrom_le_of_mem ((els.2 a.firsts).mem_iff.2 he)
  have hmem := ha.begins e he
  rw [hrecords, located_append] at hmem
  obtain hleft | hright := List.mem_append.1 hmem
  · have hlt := (le_of_mem_located hleft).2
    omega
  · exact hright

/-- Offsets in the kept part, counted from the start of the new file. -/
theorem mem_located_kept {o : ℕ} {x : Record} (h : (o, x) ∈ located (endOf 8 l) r) :
    (o - endOf 8 l + 8, x) ∈ located 8 r := by
  have hle : 8 ≤ endOf 8 l := le_endOf 8 l
  have hadd := located_add 8 (endOf 8 l - 8) r
  rw [Nat.add_sub_cancel' hle] at hadd
  rw [hadd] at h
  obtain ⟨⟨o', x'⟩, hmem, heq⟩ := List.mem_map.1 h
  obtain ⟨rfl, rfl⟩ := Prod.mk.inj heq
  have hshift : o' + (endOf 8 l - 8) - endOf 8 l + 8 = o' := by
    have h8 := (le_of_mem_located hmem).1
    omega
  simpa only [hshift] using hmem

theorem toNat_moved {min : ℕ} {offset : UInt64} (hmin : min ≤ offset.toNat)
    (hlt : offset.toNat < 2 ^ 63) :
    (moved (.ofNat min) offset).toNat = offset.toNat - min + 8 := by
  have hoffset : offset - .ofNat min = .ofNat (offset.toNat - min) := by
    rw [UInt64.ofNat_sub hmin, UInt64.ofNat_toNat]
  have hsum : moved (.ofNat min) offset = .ofNat (offset.toNat - min + 8) := by
    rw [moved, hoffset, UInt64.ofNat_add]
    rfl
  rw [hsum]
  exact UInt64.toNat_ofNat_of_lt' (show offset.toNat - min + 8 < 2 ^ 64 by omega)

/-- The map after the copies: what a copied begin says, or what it said before. -/
theorem mem_registerAll {m : OffsetMap} {locs : List (ℕ × Record)} {e : UInt64 × UInt64}
    (he : e ∈ registerAll m locs) :
    (∃ o, (o, Record.begin e.1) ∈ locs ∧ e.2 = .ofNat o) ∨
      e ∈ m ∧ ∀ x ∈ locs, x.2 ≠ Record.begin e.1 := by
  induction locs generalizing m with
  | nil => exact .inr ⟨he, fun x hx => by cases hx⟩
  | cons x locs ih =>
    obtain ⟨o, hmem, heq⟩ | ⟨hmem, hnot⟩ := ih he
    · exact .inl ⟨o, List.mem_cons_of_mem x hmem, heq⟩
    · obtain ⟨o, r⟩ := x
      by_cases hr : r = .begin e.1
      · subst hr
        obtain heq | ⟨-, hne⟩ := mem_enter.1 hmem
        · exact .inl ⟨o, by simp, congrArg Prod.snd heq⟩
        · exact absurd rfl hne
      · refine .inr ⟨?_, fun y hy => ?_⟩
        · cases r with
          | begin tid =>
            obtain rfl | ⟨hm, -⟩ := mem_enter.1 hmem
            · exact absurd rfl hr
            · exact hm
          | _ => exact hmem
        · obtain rfl | hy := List.mem_cons.1 hy
          · exact hr
          · exact hnot y hy

theorem nodup_registerAll {m : OffsetMap} (hm : (m.map Prod.fst).Nodup)
    (locs : List (ℕ × Record)) : ((registerAll m locs).map Prod.fst).Nodup := by
  induction locs generalizing m with
  | nil => exact hm
  | cons x locs ih =>
    obtain ⟨o, r⟩ := x
    refine ih ?_
    cases r with
    | begin tid => exact nodup_enter hm tid _
    | _ => exact hm

theorem Sound.checkpoint (ha : a.Sound C) (els : IterationOrder)
    (hlt : endOf 8 (a.records ++ [Record.checkpoint (els.1 a.firsts)]) < 2 ^ 63)
    (hfew : (a.next els (.checkpoint : LogCall C)).firsts.length < 2 ^ 31) :
    (a.next els (.checkpoint : LogCall C)).Sound C := by
  obtain ⟨l, r, hrecords, hmin, -⟩ := ha.exists_split els
  rw [next_checkpoint hrecords hmin] at hfew ⊢
  have hend : endOf 8 a.records < 2 ^ 63 := by
    rw [endOf_append] at hlt
    exact Nat.lt_of_le_of_lt (le_endOf _ _) hlt
  have hentries : (els.1 a.firsts).length < 2 ^ 31 := (els.2 a.firsts).length_eq ▸ ha.few
  generalize hcp : Record.checkpoint (els.1 a.firsts) = cp at hlt hfew ⊢
  have hbegin : ∀ {o : ℕ} {tid : UInt64}, (o, Record.begin tid) ∈ located 8 (r ++ [cp]) →
      (o, Record.begin tid) ∈
        located 8 ((r ++ [cp]).map (Record.moved (.ofNat (endOf 8 l)))) := by
    intro o tid hmem
    rw [located_map (Record.size_moved _)]
    exact List.mem_map.2 ⟨(o, .begin tid), hmem, rfl⟩
  have hkept : ∀ e ∈ a.firsts,
      (e.2.toNat - endOf 8 l + 8, Record.begin e.1) ∈ located 8 (r ++ [cp]) := by
    intro e he
    rw [located_append]
    exact List.mem_append_left _ (mem_located_kept (ha.begins_kept hrecords hmin he))
  refine ⟨hfew, nodup_registerAll ha.nodup _, fun x hx => ?_, .inr ?_, fun e he => ?_⟩
  · obtain ⟨y, hy, rfl⟩ := List.mem_map.1 hx
    refine Record.Readable.moved ?_ _
    obtain hy | hy := List.mem_append.1 hy
    · exact ha.readable y (hrecords ▸ List.mem_append_right l hy)
    · rw [List.mem_singleton.1 hy, ← hcp]
      exact hentries
  · refine ⟨r.map (Record.moved (.ofNat (endOf 8 l))),
      (els.1 a.firsts).map fun e => (e.1, moved (.ofNat (endOf 8 l)) e.2), [], ?_, by simp, ?_,
      fun e he => ?_⟩
    · rw [List.map_append, ← hcp]
      rfl
    · have hnat : (UInt64.ofNat (endOf 8 a.records)).toNat = endOf 8 a.records :=
        UInt64.toNat_ofNat_of_lt' (show endOf 8 a.records < 2 ^ 64 by omega)
      have hsum : endOf 8 a.records = endOf 8 l + (r.map Record.size).sum := by
        rw [hrecords, endOf_append]
        rfl
      have hr : endOf 8 r = 8 + (r.map Record.size).sum := rfl
      rw [toNat_moved (by omega) (by omega), hnat, endOf_map (Record.size_moved _)]
      omega
    · obtain ⟨e', he', rfl⟩ := List.mem_map.1 he
      have hmem := (els.2 a.firsts).mem_iff.1 he'
      have hle := (le_of_mem_located (ha.begins_kept hrecords hmin hmem)).1
      have hsmall := (le_of_mem_located (ha.begins e' hmem)).2
      rw [toNat_moved hle (by omega)]
      exact hbegin (hkept e' hmem)
  · obtain ⟨o, hmem, hoffset⟩ | ⟨hmem, hnot⟩ := mem_registerAll he
    · have ho := (le_of_mem_located hmem).2
      have hsum : endOf 8 (r ++ [cp]) ≤ endOf 8 (a.records ++ [cp]) := by
        rw [hrecords, List.append_assoc, endOf_append 8 l]
        exact Nat.add_le_add_right (le_endOf 8 l) _
      rw [hoffset, UInt64.toNat_ofNat_of_lt' (show o < 2 ^ 64 by omega)]
      exact hbegin hmem
    · exact absurd rfl (hnot _ (hkept e hmem))

/-- Before the first call. -/
def empty : Log := ⟨noCheckpointId, [], []⟩

theorem sound_empty : empty.Sound C :=
  ⟨by decide, List.nodup_nil, by simp [empty], .inl ⟨rfl, by simp [empty]⟩, by simp [empty]⟩

/-- The log after a sequence of calls. -/
def after (els : IterationOrder) (calls : List (LogCall C)) : Log :=
  calls.foldl (next els) empty

theorem after_append (els : IterationOrder) (calls : List (LogCall C)) (c : LogCall C) :
    after els (calls ++ [c]) = (after els calls).next els c := by
  simp [after]

end Log

/-! ## The code refines the steps -/

/-- The page images of a call re-serialize to the same bytes. -/
def LogCall.Reserializes : LogCall C → Prop
  | .write _ before after => (C.image before).Readable C ∧ (C.image after).Readable C
  | _ => True

namespace LogFile

variable {s : LogFile} {a : Log}

/-- The file and the map are those of the abstract log. -/
abbrev Shows (s : LogFile) (a : Log) : Prop := s.Logged a.header a.records [] a.firsts

theorem Logged.endOf_lt {h : UInt64} {rs : List Record} {m : OffsetMap}
    (hs : s.Logged h rs [] m) : endOf 8 rs < 2 ^ 63 := by
  have hsmall := hs.small
  rwa [List.append_nil, length_fileOf] at hsmall

/-- The two parts of a checkpoint. -/
theorem ends_checkpoint (ha : a.Sound C) (hs : s.Ready a.header a.records a.firsts)
    (els : IterationOrder) :
    Ends (writeCheckpoint els) s fun _ s₁ =>
      s₁.Logged (.ofNat (endOf 8 a.records)) (a.records ++ [Record.checkpoint (els.1 a.firsts)]) []
        a.firsts ∧
      Ends (logTruncate C) s₁ fun _ s₂ =>
        s₂.Shows (a.next els (.checkpoint : LogCall C)) ∧
          (a.next els (.checkpoint : LogCall C)).Sound C := by
  refine (ends_writeCheckpoint els hs ha.few).imp fun _ s₁ h₁ => ⟨h₁, ?_⟩
  obtain ⟨l, r, hrecords, hmin, -⟩ := ha.exists_split els
  have hlt := h₁.endOf_lt
  have hreadable : ∀ x ∈ a.records ++ [Record.checkpoint (els.1 a.firsts)], x.Readable C := by
    intro x hx
    obtain hx | hx := List.mem_append.1 hx
    · exact ha.readable x hx
    · rw [List.mem_singleton.1 hx]
      exact Nat.lt_of_le_of_lt (els.2 a.firsts).length_eq.le ha.few
  have hoffsets : ∀ e ∈ els.1 a.firsts, e.2.toNat < 2 ^ 63 := by
    intro e he
    have hmem := (le_of_mem_located (ha.begins e ((els.2 a.firsts).mem_iff.1 he))).2
    rw [endOf_append] at hlt
    have hle := le_endOf (endOf 8 a.records) [Record.checkpoint (els.1 a.firsts)]
    omega
  have hsplit : a.records ++ [Record.checkpoint (els.1 a.firsts)] =
      l ++ (r ++ [Record.checkpoint (els.1 a.firsts)]) := by
    rw [hrecords, List.append_assoc]
  refine (ends_logTruncate h₁ ha.few hreadable hoffsets hsplit hmin).imp fun _ s₂ h₂ => ?_
  have hnext := Log.next_checkpoint (C := C) hrecords hmin
  refine ⟨?_, ha.checkpoint els hlt ?_⟩
  · rw [Shows, hnext]
    exact h₂.1
  · rw [hnext]
    exact h₂.2

/-- A call that ends well is a step. -/
theorem step_of_ends {c : LogCall C} {P : LogFile → Prop}
    (h : Ends (c.run els) s fun _ s' => P s') :
    step els s c = .error .exhausted ∨ ∃ s', step els s c = .ok s' ∧ P s' := by
  unfold Ends at h
  split at h
  case h_1 u s' heq => exact .inr ⟨s', by simp only [step, heq], h⟩
  case h_2 e s' heq =>
    subst h
    exact .inl (by simp only [step, heq])

theorem step_refines (els : IterationOrder) {c : LogCall C} (ha : a.Sound C)
    (hs : s.Ready a.header a.records a.firsts) (hc : c.Reserializes) :
    step els s c = .error .exhausted ∨
      ∃ s', step els s c = .ok s' ∧ s'.Shows (a.next els c) ∧ (a.next els c).Sound C := by
  cases c with
  | xactionBegin tid =>
    by_cases htid : tid ∈ a.firsts.map Prod.fst
    · have hshows : s.Shows a := by
        obtain hs | ⟨-, -, hrecords, -⟩ := hs
        · exact hs
        · obtain ⟨e, he, -⟩ := List.mem_map.1 htid
          have hmem := ha.begins e he
          rw [hrecords] at hmem
          cases hmem
      have hrefused : LogCall.run els (.xactionBegin tid : LogCall C) s =
          .error (.thrown .doubleBegin) s :=
        logXactionBegin_refused (hshows.map ▸ htid)
      refine .inr ⟨s, by simp only [step, hrefused], ?_⟩
      simp only [Log.next, if_pos htid]
      exact ⟨hshows, ha⟩
    · simp only [Log.next, if_neg htid]
      refine step_of_ends ((ends_logXactionBegin hs htid).imp fun _ s' h' => ⟨h'.1, ?_⟩)
      have hlt := h'.1.endOf_lt
      rw [endOf_append] at hlt
      exact ha.begin (Nat.lt_of_le_of_lt (le_endOf _ _) hlt) h'.2
  | write tid before after =>
    exact step_of_ends ((ends_logWrite tid _ _ hs).imp fun _ s' h' =>
      ⟨h', ha.append (.update tid _ _) hc rfl (List.Sublist.refl _)⟩)
  | commit tid =>
    exact step_of_ends ((ends_logCommit tid hs).imp fun _ s' h' =>
      ⟨h', ha.append (.commit tid) trivial rfl List.filter_sublist⟩)
  | abort tid =>
    exact step_of_ends ((ends_logAbort tid hs).imp fun _ s' h' =>
      ⟨h', ha.append (.abort tid) trivial rfl List.filter_sublist⟩)
  | checkpoint =>
    exact step_of_ends ((ends_checkpoint ha hs els).bind fun _ s₁ h₁ => h₁.2)

theorem ready_new (contents : List UInt8) :
    (new contents).Ready Log.empty.header Log.empty.records Log.empty.firsts :=
  .inr ⟨rfl, rfl, rfl, rfl⟩

theorem run_append (els : IterationOrder) (s : LogFile) (calls : List (LogCall C))
    (c : LogCall C) : run els s (calls ++ [c]) = (run els s calls).bind (step els · c) := by
  rw [run, List.foldlM_append]
  simp only [List.foldlM_cons, List.foldlM_nil, bind_pure]
  rfl

/-- A run ends in the abstract log of its calls, unless the room is exhausted. -/
theorem run_refines (els : IterationOrder) (contents : List UInt8) {calls : List (LogCall C)}
    (hc : ∀ c ∈ calls, c.Reserializes) :
    run els (new contents) calls = .error .exhausted ∨
      ∃ s, run els (new contents) calls = .ok s ∧ (Log.after els calls).Sound C ∧
        s.Ready (Log.after els calls).header (Log.after els calls).records
          (Log.after els calls).firsts ∧
        (calls ≠ [] → s.Shows (Log.after els calls)) := by
  induction calls using List.reverseRecOn with
  | nil => exact .inr ⟨new contents, rfl, Log.sound_empty, ready_new contents, fun h => absurd rfl h⟩
  | append_singleton calls c ih =>
    rw [run_append, Log.after_append]
    obtain hfull | ⟨s, hs, hsound, hready, -⟩ := ih fun x hx => hc x (List.mem_append_left _ hx)
    · exact .inl (by rw [hfull]; rfl)
    · rw [hs, Except.bind]
      obtain hfull | ⟨s', hs', hshows, hsound'⟩ :=
        step_refines els hsound hready (hc c (by simp))
      · exact .inl hfull
      · exact .inr ⟨s', hs', hsound', .inl hshows, fun _ => hshows⟩

/-! ## The file stays well formed -/

/-- The file is a header and complete records, each with its start offset at the end; the header
names the last checkpoint; and the offset and the pointer are the length of the file. -/
structure WellFormed (s : LogFile) (h : UInt64) (rs : List Record) : Prop where
  bytes : s.raf.bytes = fileOf h rs
  names : Log.NamesLastCheckpoint h rs
  offset : s.currentOffset.toNat = s.raf.bytes.length
  pointer : s.raf.pointer = s.raf.bytes.length

theorem Logged.wellFormed {h : UInt64} {rs : List Record} {m : OffsetMap}
    (hs : s.Logged h rs [] m) (hnames : Log.NamesLastCheckpoint h rs) : s.WellFormed h rs := by
  have hbytes : s.raf.bytes = fileOf h rs := by
    rw [hs.raf, List.append_nil]
    exact List.append_nil _
  refine ⟨hbytes, hnames, ?_, ?_⟩
  · rw [hs.offset, toNat_ofNat_endOf hs, hbytes, length_fileOf]
  · rw [hbytes, hs.raf, List.append_nil]
    rfl

/-- After any calls the log is well formed, and when a checkpoint then truncates it, it keeps
exactly the records from the smallest offset the checkpoint needs. -/
theorem run_wellFormed (els : IterationOrder) (contents : List UInt8) (calls : List (LogCall C))
    (hc : ∀ c ∈ calls, c.Reserializes) :
    run els (new contents) calls = .error .exhausted ∨
      ∃ s, run els (new contents) calls = .ok s ∧
        (calls ≠ [] → ∃ h rs, s.WellFormed h rs) ∧
        Ends (writeCheckpoint els) s fun _ s₁ => ∃ rs entries,
          s₁.WellFormed (.ofNat (endOf 8 rs)) (rs ++ [.checkpoint entries]) ∧
          Ends (logTruncate C) s₁ fun _ s₂ => ∃ h,
            s₂.WellFormed h
              ((recordsFrom (neededFrom (endOf 8 rs) entries) (rs ++ [.checkpoint entries])).map
                (Record.moved (.ofNat (neededFrom (endOf 8 rs) entries)))) := by
  obtain hfull | ⟨s, hs, hsound, hready, hshows⟩ := run_refines els contents hc
  · exact .inl hfull
  · refine .inr ⟨s, hs, fun hne => ⟨_, _, (hshows hne).wellFormed hsound.names⟩, ?_⟩
    generalize Log.after els calls = a at hsound hready
    refine (ends_checkpoint hsound hready els).imp fun _ s₁ h₁ => ?_
    refine ⟨a.records, els.1 a.firsts, h₁.1.wellFormed ?_, h₁.2.imp fun _ s₂ h₂ => ?_⟩
    · refine .inr ⟨a.records, els.1 a.firsts, [], rfl, by simp, ?_, fun e he => ?_⟩
      · have hlt := h₁.1.endOf_lt
        rw [endOf_append] at hlt
        have hle := le_endOf (endOf 8 a.records) [.checkpoint (els.1 a.firsts)]
        exact UInt64.toNat_ofNat_of_lt' (show endOf 8 a.records < 2 ^ 64 by omega)
      · rw [located_append]
        exact List.mem_append_left _ (hsound.begins e ((els.2 a.firsts).mem_iff.1 he))
    · exact ⟨_, h₂.1.wellFormed h₂.2.names⟩

/-- `simpledb.HeapPage` -/
def heapPageName : List UInt8 :=
  [115, 105, 109, 112, 108, 101, 100, 98, 46, 72, 101, 97, 112, 80, 97, 103, 101]

/-- `simpledb.HeapPageId` -/
def heapPageIdName : List UInt8 := heapPageName ++ [73, 100]

/-- A page with its number and its bytes, as far as the log sees it. -/
def heapImage (tableId pgNo : UInt32) (data : List UInt8) (h : data.length < 2 ^ 31) : PageImage :=
  ⟨heapPageName, heapPageIdName, [tableId, pgNo], data, by decide, by decide, by simp, h⟩

/-- Heap pages that give back the bytes they were made from. -/
def heapPages : PageClasses where
  Page := UInt32 × UInt32 × { data : List UInt8 // data.length < 2 ^ 31 }
  PageId := UInt32 × UInt32
  image p := heapImage p.1 p.2.1 p.2.2.1 p.2.2.2
  forName name := name = heapPageName ∨ name = heapPageIdName
  newId _ args :=
    match args with
    | [tableId, pgNo] => some (tableId, pgNo)
    | _ => none
  newPage _ pid data :=
    if h : data.length < 2 ^ 31 then some (pid.1, pid.2, ⟨data, h⟩) else none

theorem heapPages_readable (p : heapPages.Page) : (heapPages.image p).Readable heapPages := by
  refine ⟨?_, ?_, (p.1, p.2.1), p, rfl, dif_pos p.2.2.2, rfl⟩
  · simp [heapPages, heapImage]
  · simp [heapPages, heapImage]

/-- An update between a begin and a commit, and a checkpoint. -/
def oneUpdate : List (LogCall heapPages) :=
  let page : heapPages.Page := (1, 0, ⟨List.replicate 4 0, by simp⟩)
  [.xactionBegin 1, .write 1 page page, .commit 1, .checkpoint]

theorem run_wellFormed_oneUpdate :
    (∀ c ∈ oneUpdate, c.Reserializes) ∧
      ∃ s, run ⟨id, fun m => .refl m⟩ (new []) oneUpdate = .ok s ∧ ∃ h rs, s.WellFormed h rs := by
  have hc : ∀ c ∈ oneUpdate, c.Reserializes := by
    intro c hc
    cases c with
    | write tid before after => exact ⟨heapPages_readable before, heapPages_readable after⟩
    | _ => trivial
  have hok : (run ⟨id, fun m => .refl m⟩ (new []) oneUpdate).toBool = true := by decide +kernel
  refine ⟨hc, ?_⟩
  obtain hfull | ⟨s, hs, hwf, -⟩ := run_wellFormed ⟨id, fun m => .refl m⟩ [] oneUpdate hc
  · rw [hfull] at hok
    cases hok
  · exact ⟨s, hs, hwf (by simp [oneUpdate])⟩

/-- Before the first call the file has whatever contents it was found with. -/
theorem new_not_wellFormed :
    ¬ ∀ (C : PageClasses) (els : IterationOrder) (contents : List UInt8)
      (calls : List (LogCall C)), (∀ c ∈ calls, c.Reserializes) →
        ∀ s, run els (new contents) calls = .ok s → ∃ h rs, s.WellFormed h rs := by
  intro hall
  obtain ⟨h, rs, hwf⟩ := hall heapPages ⟨id, fun m => .refl m⟩ [] [] (by simp) (new []) rfl
  have hlength := congrArg List.length hwf.bytes
  rw [length_fileOf] at hlength
  have hle := le_endOf 8 rs
  have hzero : (new []).raf.bytes.length = 0 := rfl
  omega

end LogFile

end Courses.SimpleDb
