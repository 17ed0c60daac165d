import Courses.SimpleDb.LogRecords
import Mathlib

/-!
# Truncating the log

The truncation of a log whose last record is the checkpoint its header names. It finds the
smallest offset the checkpoint needs, and copies the records from there on, with the
offsets of the new file.
-/
namespace Courses.SimpleDb

open Courses.Lib RandomAccessFile

/-- What the copy of a record that begins at `start` does to the map. -/
def Record.register (start : ℕ) (m : OffsetMap) : Record → OffsetMap
  | .begin tid => LogFile.enter m tid (.ofNat start)
  | _ => m

/-- What the copies of records do to the map. -/
def registerAll (m : OffsetMap) (located : List (ℕ × Record)) : OffsetMap :=
  located.foldl (fun m x => x.2.register x.1 m) m

namespace LogFile

variable {C : PageClasses} {t : Truncation} {pre rest new : List UInt8} {m : OffsetMap}

/-- The old file has been read up to `rest`, the new file has the bytes `new`. -/
structure Copying (t : Truncation) (pre rest new : List UInt8) (m : OffsetMap) : Prop where
  old : t.log.raf = split pre rest
  logNew : t.logNew = split new []
  small : new.length < 2 ^ 63
  decided : t.log.recoveryUndecided = false
  map : t.log.tidToFirstLogRecord = m
  few : m.length < 2 ^ 31

theorem onOld_ok {α : Type} {w : FileM LogException α} {a : α} {f : RandomAccessFile}
    (hw : w t.log.raf = .ok a f) :
    onOld w t = .ok a { t with log := { t.log with raf := f } } := by
  simp only [onOld, onLog, zoom, onRaf_ok hw]

/-- A program on the old file that only moves its pointer. -/
theorem Copying.move {α β : Type} {w : FileM LogException α} {a : α} {pre' rest' : List UInt8}
    {k : α → TruncM β} {Q : β → Truncation → Prop} (ht : Copying t pre rest new m)
    (hw : w (split pre rest) = .ok a (split pre' rest'))
    (hk : ∀ t', Copying t' pre' rest' new m → Ends (k a) t' Q) : Ends (onOld w >>= k) t Q := by
  rw [← ht.old] at hw
  exact Ends.ok_bind (onOld_ok hw) (hk _ ⟨rfl, ht.logNew, ht.small, ht.decided, ht.map, ht.few⟩)

theorem Copying.read {α β : Type} {r : FileM LogException α} {bs : List UInt8} {a : α}
    {k : α → TruncM β} {Q : β → Truncation → Prop} (ht : Copying t pre (bs ++ rest) new m)
    (hr : Consumes r bs a)
    (hk : ∀ t', Copying t' (pre ++ bs) rest new m → Ends (k a) t' Q) :
    Ends (onOld r >>= k) t Q :=
  ht.move (hr pre rest) hk

theorem ends_onNew {w : FileM LogException Unit} {bs : List UInt8}
    (ht : Copying t pre rest new m) (hw : Appends w bs) :
    Ends (onNew w) t fun _ t' => Copying t' pre rest (new ++ bs) m := by
  refine Ends.zoom ?_
  rw [ht.logNew]
  refine (hw new ht.small).imp fun _ f hf => ?_
  exact ⟨ht.old, hf.1, hf.2, ht.decided, ht.map, ht.few⟩

theorem Copying.append {β : Type} {w : FileM LogException Unit} {bs : List UInt8}
    {k : Unit → TruncM β} {Q : β → Truncation → Prop} (ht : Copying t pre rest new m)
    (hw : Appends w bs) (hk : ∀ t', Copying t' pre rest (new ++ bs) m → Ends (k ()) t' Q) :
    Ends (onNew w >>= k) t Q :=
  (ends_onNew ht hw).bind fun _ t' ht' => hk t' ht'

theorem ends_onLog_put (tid offset : UInt64) (ht : Copying t pre rest new m) :
    Ends (onLog (put tid offset)) t fun _ t' =>
      Copying t' pre rest new (enter m tid offset) := by
  refine Ends.zoom ((ends_put tid offset).imp fun _ s hs => ?_)
  obtain ⟨rfl, hlength⟩ := hs
  rw [ht.map] at hlength
  exact ⟨ht.old, ht.logNew, ht.small, ht.decided, congrArg (enter · tid offset) ht.map, hlength⟩

/-! ## Copying a record -/

theorem ends_rewriteEntries (min : UInt64) (entries : OffsetMap)
    (ht : Copying t pre (Record.encodeEntries entries ++ rest) new m) :
    Ends (rewriteEntries min entries.length) t fun _ t' =>
      Copying t' (pre ++ Record.encodeEntries entries) rest
        (new ++ Record.encodeEntries (entries.map fun e => (e.1, moved min e.2))) m := by
  induction entries generalizing t pre new with
  | nil =>
    simp only [Record.encodeEntries, List.flatMap_nil, List.map_nil, List.append_nil]
    exact ht
  | cons e entries ih =>
    simp only [Record.encodeEntries, List.flatMap_cons, List.append_assoc, List.map_cons] at ht ih ⊢
    refine ht.read (Consumes.readLong e.1) fun t₁ h₁ => h₁.read (Consumes.readLong e.2) fun t₂ h₂ => ?_
    refine h₂.append (Appends.writeLong _) fun t₃ h₃ => h₃.append (Appends.writeLong _) fun t₄ h₄ => ?_
    simpa only [List.append_assoc] using ih h₄

theorem loopCount_ofNat {n : ℕ} (h : n < 2 ^ 31) : loopCount (.ofNat n) = n := by
  have hnat : (UInt32.ofNat n).toBitVec.toNat = n :=
    UInt32.toNat_ofNat_of_lt' (show n < 2 ^ 32 by omega)
  rw [loopCount, BitVec.toInt_eq_toNat_of_lt (by omega), hnat, Int.toNat_natCast]

theorem ends_rewriteBody {r : Record} (min : UInt64) (hr : r.Readable C)
    (ht : Copying t pre (r.body ++ rest) new m) (start : ℕ) :
    Ends (rewriteBody C min r.type r.tid (.ofNat start)) t fun _ t' =>
      Copying t' (pre ++ r.body) rest (new ++ (r.moved min).body) (r.register start m) := by
  cases r with
  | abort tid =>
    simp only [Record.body, Record.moved, List.append_nil]
    exact ht
  | commit tid =>
    simp only [Record.body, Record.moved, List.append_nil]
    exact ht
  | begin tid =>
    simp only [Record.body, Record.moved, List.append_nil]
    exact ends_onLog_put tid (.ofNat start) ht
  | update tid before after =>
    obtain ⟨page₁, rfl, hread₁⟩ := consumes_readPageData hr.1
    obtain ⟨page₂, rfl, hread₂⟩ := consumes_readPageData hr.2
    simp only [Record.body, Record.moved, List.append_assoc] at ht ⊢
    refine ht.read hread₁ fun t₁ h₁ => h₁.read hread₂ fun t₂ h₂ => ?_
    refine h₂.append (appends_writePageData _) fun t₃ h₃ => ?_
    have hend := ends_onNew h₃ (appends_writePageData (C.image page₂))
    simpa only [List.append_assoc, Record.register] using hend
  | checkpoint entries =>
    have hnat : (UInt32.ofNat entries.length).toNat = entries.length :=
      UInt32.toNat_ofNat_of_lt' (show entries.length < 2 ^ 32 from Nat.lt_trans hr (by decide))
    have hread := Consumes.readInt (E := LogException) (.ofNat entries.length)
    rw [hnat] at hread
    simp only [Record.body, Record.moved, List.append_assoc, List.length_map] at ht ⊢
    refine ht.read hread fun t₁ h₁ => h₁.append (appends_writeSize hr) fun t₂ h₂ => ?_
    have hentries := ends_rewriteEntries min entries h₂
    rw [loopCount_ofNat hr]
    simpa only [List.append_assoc, Record.register] using hentries

theorem ends_rewriteRecord {r : Record} {start : ℕ} (min : UInt64) (hr : r.Readable C)
    (hstart : start < 2 ^ 63) (ht : Copying t pre (r.encode start ++ rest) new m) :
    Ends (rewriteRecord C min) t fun _ t' =>
      Copying t' (pre ++ r.encode start) rest (new ++ (r.moved min).encode new.length)
        (r.register new.length m) := by
  have hhead : (r.moved min).head = r.head := by cases r <;> rfl
  have hnat : (UInt64.ofNat new.length).toNat = new.length :=
    UInt64.toNat_ofNat_of_lt' (show new.length < 2 ^ 64 from Nat.lt_trans ht.small (by decide))
  have hold := Consumes.readLong (E := LogException) (.ofNat start)
  rw [UInt64.toNat_ofNat_of_lt' (show start < 2 ^ 64 by omega)] at hold
  have hpointer : ∀ t : Truncation, t.logNew = split new [] →
      onNew getFilePointer t = .ok (.ofNat new.length) t := by
    intro t ht
    have hget : (getFilePointer : FileM LogException UInt64) t.logNew =
        .ok (.ofNat new.length) t.logNew := by
      rw [ht]
      rfl
    simp only [onNew, zoom, hget]
  simp only [Record.encode, Record.head, List.append_assoc] at ht
  refine ht.read (Consumes.readInt r.type) fun t₁ h₁ => ?_
  refine h₁.read (Consumes.readLong r.tid) fun t₂ h₂ => ?_
  refine Ends.ok_bind (hpointer t₂ h₂.logNew) ?_
  refine h₂.append (Appends.writeInt r.type) fun t₃ h₃ => ?_
  refine h₃.append (Appends.writeLong r.tid) fun t₄ h₄ => ?_
  refine (ends_rewriteBody min hr h₄ new.length).bind fun _ t₅ h₅ => ?_
  refine h₅.append (Appends.writeLong _) fun t₆ h₆ => ?_
  refine h₆.read hold fun t₇ h₇ => Ends.pure ?_
  rw [hnat] at h₇
  simp only [Record.encode, hhead]
  simpa only [Record.head, List.append_assoc] using h₇

/-- At the end of the old file the loop stops. -/
theorem rewriteRecord_endOfFile (min : UInt64) (ht : Copying t pre [] new m) :
    rewriteRecord C min t = .error .endOfFile t := by
  have hread : (RandomAccessFile.readInt : FileM LogException UInt32) t.log.raf =
      .error .endOfFile t.log.raf := by
    rw [ht.old]
    simp [RandomAccessFile.readInt, readFully, split, Bind.bind, EStateM.bind]
  simp only [rewriteRecord, onOld, onLog, onRaf, zoom, Bind.bind, EStateM.bind, hread]

/-- One round of the loop that does not meet the end of the old file. -/
theorem ends_rewriteRecords_succ {min : UInt64} {fuel : ℕ} {R Q : Unit → Truncation → Prop}
    (h : Ends (rewriteRecord C min) t R)
    (hk : ∀ t', R () t' → Ends (rewriteRecords C min fuel) t' Q) :
    Ends (rewriteRecords C min (fuel + 1)) t Q := by
  unfold Ends at h
  split at h
  case h_1 a t' heq =>
    have hnext := hk t' h
    simpa only [Ends, rewriteRecords, heq] using hnext
  case h_2 e t' heq =>
    subst h
    simp only [Ends, rewriteRecords, heq]

theorem ends_rewriteRecords {rs : List Record} {start : ℕ} (min : UInt64)
    (hr : ∀ r ∈ rs, r.Readable C) (hsmall : endOf start rs < 2 ^ 63)
    (ht : Copying t pre (encodeAll start rs) new m) {fuel : ℕ} (hfuel : rs.length < fuel) :
    Ends (rewriteRecords C min fuel) t fun _ t' => ∃ pre',
      Copying t' pre' [] (new ++ encodeAll new.length (rs.map (Record.moved min)))
        (registerAll m (located new.length rs)) := by
  induction rs generalizing t pre new m start fuel with
  | nil =>
    cases fuel with
    | zero => cases hfuel
    | succ fuel =>
      have hstop : rewriteRecords C min (fuel + 1) t = .ok () t := by
        simp only [rewriteRecords, rewriteRecord_endOfFile min ht]
      exact Ends.of_ok hstop ⟨pre, by simpa [encodeAll, registerAll, located] using ht⟩
  | cons r rs ih =>
    cases fuel with
    | zero => cases hfuel
    | succ fuel =>
      rw [endOf_cons] at hsmall
      have hstart : start < 2 ^ 63 := by
        have hle := le_endOf (start + r.size) rs
        omega
      rw [encodeAll] at ht
      have hround := ends_rewriteRecord min (hr r (by simp)) hstart ht
      refine ends_rewriteRecords_succ hround fun t₁ h₁ => ?_
      have hrest := ih (fun x hx => hr x (List.mem_cons_of_mem r hx)) hsmall h₁ (by simpa using hfuel)
      have hlength : (new ++ (r.moved min).encode new.length).length = new.length + r.size := by
        rw [List.length_append, Record.length_encode, Record.size_moved]
      rw [hlength] at hrest
      simpa only [encodeAll, located, List.map_cons, registerAll, List.foldl_cons,
        Record.size_moved, List.append_assoc] using hrest

/-! ## Finding the first record to keep -/

/-- The smallest offset that a checkpoint at `cp` needs. -/
def neededFrom (cp : ℕ) (entries : OffsetMap) : ℕ :=
  entries.foldl (fun min e => Nat.min min e.2.toNat) cp

theorem neededFrom_le (cp : ℕ) (entries : OffsetMap) : neededFrom cp entries ≤ cp := by
  induction entries generalizing cp with
  | nil => exact Nat.le_refl cp
  | cons e entries ih => exact Nat.le_trans (ih _) (Nat.min_le_left _ _)

theorem neededFrom_le_of_mem {cp : ℕ} {entries : OffsetMap} {e : UInt64 × UInt64}
    (he : e ∈ entries) : neededFrom cp entries ≤ e.2.toNat := by
  induction entries generalizing cp with
  | nil => cases he
  | cons x entries ih =>
    obtain rfl | he := List.mem_cons.1 he
    · exact Nat.le_trans (neededFrom_le _ entries) (Nat.min_le_right _ _)
    · exact ih he

theorem neededFrom_eq (cp : ℕ) (entries : OffsetMap) :
    neededFrom cp entries = cp ∨ ∃ e ∈ entries, neededFrom cp entries = e.2.toNat := by
  induction entries generalizing cp with
  | nil => exact .inl rfl
  | cons x entries ih =>
    obtain h | ⟨e, he, h⟩ := ih (Nat.min cp x.2.toNat)
    · by_cases hle : cp ≤ x.2.toNat
      · exact .inl (h.trans (Nat.min_eq_left hle))
      · exact .inr ⟨x, by simp, h.trans (Nat.min_eq_right (by omega))⟩
    · exact .inr ⟨e, List.mem_cons_of_mem x he, h⟩

theorem longValue_eq {n : UInt64} (h : n.toNat < 2 ^ 63) : longValue n = n.toNat :=
  BitVec.toInt_eq_toNat_of_lt (show 2 * n.toNat < 2 ^ 64 by omega)

theorem consumes_readMin {entries : OffsetMap} {min : UInt64} (hmin : min.toNat < 2 ^ 63)
    (he : ∀ e ∈ entries, e.2.toNat < 2 ^ 63) :
    Consumes (readMin entries.length min) (Record.encodeEntries entries)
      (.ofNat (neededFrom min.toNat entries)) := by
  induction entries generalizing min with
  | nil =>
    rw [neededFrom, List.foldl_nil, UInt64.ofNat_toNat]
    exact Consumes.pure min
  | cons e entries ih =>
    have hlt : longValue e.2 < longValue min ↔ e.2.toNat < min.toNat := by
      rw [longValue_eq hmin, longValue_eq (he e (by simp)), Nat.cast_lt]
    let next := if longValue e.2 < longValue min then e.2 else min
    have hnext : next.toNat = Nat.min min.toNat e.2.toNat := by
      by_cases h : longValue e.2 < longValue min
      · simp only [next, if_pos h]
        exact (Nat.min_eq_right (hlt.1 h).le).symm
      · simp only [next, if_neg h]
        exact (Nat.min_eq_left (not_lt.1 (mt hlt.2 h))).symm
    have hsmall : next.toNat < 2 ^ 63 := hnext ▸ Nat.lt_of_le_of_lt (Nat.min_le_left _ _) hmin
    have hentries := ih hsmall fun x hx => he x (List.mem_cons_of_mem e hx)
    rw [hnext] at hentries
    simp only [Record.encodeEntries, List.flatMap_cons, List.append_assoc]
    exact (Consumes.readLong e.1).bind ((Consumes.readLong e.2).bind hentries)

/-- The checkpoint says where the records to keep begin. -/
theorem findMin_ok {f : RandomAccessFile} {cpLoc : UInt64} {before : List UInt8} {start : ℕ}
    {entries : OffsetMap}
    (hbytes : f.bytes = before ++ Record.encode (.checkpoint entries) start)
    (hcp : cpLoc.toNat = before.length) (hlt : before.length < 2 ^ 63)
    (hlength : entries.length < 2 ^ 31) (he : ∀ e ∈ entries, e.2.toNat < 2 ^ 63) :
    ∃ pre rest, pre ++ rest = f.bytes ∧
      findMin cpLoc f = .ok (.ofNat (neededFrom before.length entries)) (split pre rest) := by
  have hne : cpLoc ≠ noCheckpointId := by
    rintro rfl
    rw [show noCheckpointId.toNat = 2 ^ 64 - 1 from rfl] at hcp
    omega
  have hmin := @consumes_readMin entries cpLoc (hcp ▸ hlt) he
  rw [hcp] at hmin
  have hcount : (UInt32.ofNat entries.length).toNat = entries.length :=
    UInt32.toNat_ofNat_of_lt' (show entries.length < 2 ^ 32 by omega)
  have hnum := Consumes.readInt (E := LogException) (.ofNat entries.length)
  rw [hcount] at hnum
  have hread : Consumes (do
      let cpType ← RandomAccessFile.readInt
      let _cpTid ← readLong
      if cpType ≠ checkpointRecord then throw (.thrown .notACheckpoint)
      let numOutstanding ← RandomAccessFile.readInt
      readMin (loopCount numOutstanding) cpLoc : FileM LogException UInt64)
      (Record.head (.checkpoint entries) ++ Record.body (.checkpoint entries))
      (.ofNat (neededFrom before.length entries)) := by
    rw [Record.head, List.append_assoc]
    refine (Consumes.readInt _).bind ((Consumes.readLong _).bind ?_)
    simp only [Record.type, ne_eq, not_true_eq_false, if_false]
    refine hnum.bind ?_
    rwa [loopCount_ofNat hlength]
  refine ⟨before ++ (Record.head (.checkpoint entries) ++ Record.body (.checkpoint entries)),
    beBytes 8 start, by simp [hbytes, Record.encode], ?_⟩
  have hseek := seek_ok (E := LogException) hbytes hcp hlt
  rw [Record.encode, ← List.append_assoc (Record.head _)] at hseek
  simp only [findMin, if_pos hne, Bind.bind, EStateM.bind, hseek]
  exact hread before _

/-! ## The truncation -/

theorem length_le_encodeAll (start : ℕ) (rs : List Record) :
    rs.length ≤ (encodeAll start rs).length := by
  induction rs generalizing start with
  | nil => exact Nat.le_refl 0
  | cons r rs ih =>
    have hsize : 0 < r.size := Nat.succ_pos _
    have hrest := ih (start + r.size)
    rw [encodeAll, List.length_append, Record.length_encode, List.length_cons]
    omega

variable {s : LogFile} {h : UInt64} {rs : List Record}

/-- The records `l` are dropped, and the records `r` are copied. -/
theorem ends_copyLog {entries : OffsetMap} {l r : List Record}
    (hs : s.Logged (.ofNat (endOf 8 rs)) (rs ++ [Record.checkpoint entries]) [] m)
    (hm : m.length < 2 ^ 31) (hr : ∀ x ∈ rs ++ [Record.checkpoint entries], x.Readable C)
    (he : ∀ e ∈ entries, e.2.toNat < 2 ^ 63) (hsplit : rs ++ [Record.checkpoint entries] = l ++ r)
    (hmin : neededFrom (endOf 8 rs) entries = endOf 8 l) :
    Ends (copyLog C) ⟨s, ⟨[], 0⟩⟩ fun _ t' => ∃ pre',
      Copying t' pre' []
        (fileOf (moved (.ofNat (endOf 8 l)) (.ofNat (endOf 8 rs)))
          (r.map (Record.moved (.ofNat (endOf 8 l)))))
        (registerAll m (located 8 r)) := by
  have hlt : endOf 8 (rs ++ [Record.checkpoint entries]) < 2 ^ 63 := by
    rw [← length_fileOf (.ofNat (endOf 8 rs)), ← List.append_nil (fileOf _ _)]
    exact hs.small
  have hcp : endOf 8 rs < 2 ^ 63 := by
    have hle := le_endOf (endOf 8 rs) [Record.checkpoint entries]
    rw [endOf_append] at hlt
    omega
  have hkept : endOf 8 l < 2 ^ 63 := by
    have hle := neededFrom_le (endOf 8 rs) entries
    omega
  generalize hh : UInt64.ofNat (endOf 8 rs) = h at hs ⊢
  have hnat : h.toNat = endOf 8 rs := by
    rw [← hh]
    exact UInt64.toNat_ofNat_of_lt' (show endOf 8 rs < 2 ^ 64 by omega)
  refine Ends.bind
    (R := fun _ t' => Copying t' (fileOf h (rs ++ [Record.checkpoint entries]) ++ []) [] [] m)
    (Ends.zoom ((ends_preAppend (.inl hs)).imp fun _ s' h' =>
      ⟨h'.raf, rfl, by decide, h'.decided, h'.map, hm⟩)) fun _ t₁ h₁ => ?_
  -- the header
  have hstart : (seek 0 : FileM LogException Unit)
      (split (fileOf h (rs ++ [Record.checkpoint entries]) ++ []) []) =
      .ok () (split [] (beBytes 8 h.toNat ++ encodeAll 8 (rs ++ [Record.checkpoint entries]))) :=
    seek_ok (by simp [split, fileOf]) rfl (by decide)
  refine h₁.move hstart fun t₂ h₂ => h₂.read (Consumes.readLong h) fun t₃ h₃ => ?_
  rw [List.nil_append] at h₃
  -- the checkpoint
  have hfile : (split (beBytes 8 h.toNat) (encodeAll 8 (rs ++ [Record.checkpoint entries]))).bytes =
      fileOf h rs ++ Record.encode (.checkpoint entries) (endOf 8 rs) := by
    simp [split, fileOf, encodeAll_append, encodeAll]
  have hentries : entries.length < 2 ^ 31 := hr (.checkpoint entries) (by simp)
  obtain ⟨pre, rest, hbytes, hfind⟩ := findMin_ok hfile (by rw [hnat, length_fileOf])
    (by rwa [length_fileOf]) hentries he
  rw [length_fileOf, hmin] at hfind
  refine h₃.move hfind fun t₄ h₄ => ?_
  -- the new file
  have hzero : onNew (seek 0) t₄ = .ok () t₄ := by
    have hseek : (seek 0 : FileM LogException Unit) t₄.logNew = .ok () t₄.logNew := by
      rw [h₄.logNew]
      rfl
    simp only [onNew, zoom, hseek]
  refine Ends.ok_bind hzero (h₄.append (Appends.writeLong _) fun t₅ h₅ => ?_)
  rw [List.nil_append] at h₅
  -- the records to keep
  have hkeep : (seek (.ofNat (endOf 8 l)) : FileM LogException Unit) (split pre rest) =
      .ok () (split (fileOf h l) (encodeAll (endOf 8 l) r)) := by
    refine seek_ok ?_ ?_ (by rwa [length_fileOf])
    · rw [split, hbytes, split, hsplit]
      simp [fileOf, encodeAll_append]
    · rw [length_fileOf]
      exact UInt64.toNat_ofNat_of_lt' (show endOf 8 l < 2 ^ 64 by omega)
  refine h₅.move hkeep fun t₆ h₆ => Ends.ok_bind rfl ?_
  have hfuel : r.length < t₆.log.raf.bytes.length + 1 := by
    have hle := length_le_encodeAll (endOf 8 l) r
    rw [h₆.old]
    simp only [split, List.length_append]
    omega
  have hend : endOf (endOf 8 l) r < 2 ^ 63 := by rwa [← endOf_append, ← hsplit]
  have hcopy := ends_rewriteRecords (.ofNat (endOf 8 l))
    (fun x hx => hr x (hsplit ▸ List.mem_append_right l hx)) hend h₆ hfuel
  rwa [beBytes_length] at hcopy

theorem reopen_ok {newFile : List UInt8} (hlt : newFile.length < 2 ^ 63) :
    reopen newFile s =
      .ok () { s with raf := split newFile [], currentOffset := .ofNat newFile.length } := by
  have hseek : (seek (.ofNat newFile.length) : FileM LogException Unit) ⟨newFile, 0⟩ =
      .ok () (split newFile []) :=
    seek_ok (List.append_nil _).symm
      (UInt64.toNat_ofNat_of_lt' (show newFile.length < 2 ^ 64 by omega)) hlt
  simp only [reopen, setCurrentOffset, Bind.bind, EStateM.bind, modify, modifyGet,
    MonadStateOf.modifyGet, EStateM.modifyGet, onRaf, zoom, length, getFilePointer, hseek]
  rfl

theorem ends_logTruncate {entries : OffsetMap} {l r : List Record}
    (hs : s.Logged (.ofNat (endOf 8 rs)) (rs ++ [Record.checkpoint entries]) [] m)
    (hm : m.length < 2 ^ 31) (hr : ∀ x ∈ rs ++ [Record.checkpoint entries], x.Readable C)
    (he : ∀ e ∈ entries, e.2.toNat < 2 ^ 63) (hsplit : rs ++ [Record.checkpoint entries] = l ++ r)
    (hmin : neededFrom (endOf 8 rs) entries = endOf 8 l) :
    Ends (logTruncate C) s fun _ s' =>
      s'.Logged (moved (.ofNat (endOf 8 l)) (.ofNat (endOf 8 rs)))
        (r.map (Record.moved (.ofNat (endOf 8 l)))) [] (registerAll m (located 8 r)) ∧
      (registerAll m (located 8 r)).length < 2 ^ 31 := by
  have hcopy := ends_copyLog hs hm hr he hsplit hmin
  unfold Ends at hcopy
  split at hcopy
  case h_2 e t heq => simpa only [Ends, logTruncate, heq] using hcopy
  case h_1 u t heq =>
    obtain ⟨pre', ht⟩ := hcopy
    have hreopen := reopen_ok (s := t.log) ht.small
    have hbytes : t.logNew.bytes = _ := (congrArg bytes ht.logNew).trans (List.append_nil _)
    rw [← hbytes] at hreopen
    simp only [Ends, logTruncate, heq, hreopen]
    refine ⟨⟨?_, ?_, ht.decided, ?_, ht.map⟩, ht.few⟩
    · rw [hbytes, List.append_nil]
    · rw [List.append_nil]
      exact ht.small
    · rw [hbytes, length_fileOf]

end LogFile

end Courses.SimpleDb
