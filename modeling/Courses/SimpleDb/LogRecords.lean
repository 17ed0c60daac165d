import Courses.SimpleDb.LogFile

/-!
# The records of the log

The log file as a header and a list of records, each with its start offset at the end,
and what the calls on the log do to that list. A truncation reads the records
it keeps back from their bytes and writes them again.
-/
namespace Courses.SimpleDb

open Courses.Lib RandomAccessFile

/-! ## Pages -/

def PageImage.encode (p : PageImage) : List UInt8 :=
  (beBytes 2 p.pageClassName.length ++ p.pageClassName) ++
    ((beBytes 2 p.idClassName.length ++ p.idClassName) ++
      (beBytes 4 p.pageInfo.length ++
        (p.pageInfo.flatMap (fun i => beBytes 4 i.toNat) ++
          (beBytes 4 p.pageData.length ++ p.pageData))))

/-- The classes are found, and make a page with the same image. -/
def PageImage.Readable (C : PageClasses) (p : PageImage) : Prop :=
  C.forName p.idClassName = true ∧ C.forName p.pageClassName = true ∧
    ∃ pid page, C.newId p.idClassName p.pageInfo = some pid ∧
      C.newPage p.pageClassName pid p.pageData = some page ∧ C.image page = p

theorem appends_writeSize {n : ℕ} (h : n < 2 ^ 31) :
    Appends (RandomAccessFile.writeInt (.ofNat n) : FileM LogException Unit) (beBytes 4 n) := by
  have hint := Appends.writeInt (E := LogException) (.ofNat n)
  rwa [UInt32.toNat_ofNat_of_lt' (show n < 2 ^ 32 by omega)] at hint

theorem appends_writePageData (p : PageImage) : Appends (writePageData p) p.encode :=
  (Appends.writeUTF _).bind <| (Appends.writeUTF _).bind <|
    (appends_writeSize p.pageInfo_lt).bind <| (Appends.forM Appends.writeInt _).bind <|
      (appends_writeSize p.pageData_lt).bind (Appends.write _)

theorem consumes_readSize {n : ℕ} (h : n < 2 ^ 31) : Consumes readSize (beBytes 4 n) n := by
  have hnat : (UInt32.ofNat n).toNat = n := UInt32.toNat_ofNat_of_lt' (show n < 2 ^ 32 by omega)
  have hread := Consumes.readInt (E := LogException) (.ofNat n)
  rw [hnat] at hread
  refine hread.andThen ?_
  simp only [hnat, if_pos h]
  exact Consumes.pure n

theorem consumes_readInts (is : List UInt32) :
    Consumes (readInts is.length) (is.flatMap fun i => beBytes 4 i.toNat) is := by
  induction is with
  | nil => exact Consumes.pure _
  | cons i is ih => exact (Consumes.readInt i).bind (ih.map (i :: ·))

theorem consumes_readPageData {C : PageClasses} {p : PageImage} (h : p.Readable C) :
    ∃ page, C.image page = p ∧ Consumes (readPageData C) p.encode page := by
  obtain ⟨hid, hclass, pid, page, hnewId, hnewPage, himage⟩ := h
  refine ⟨page, himage, ?_⟩
  have hpid : Consumes (constructed (C.newId p.idClassName p.pageInfo)) [] pid := by
    rw [hnewId]
    exact Consumes.pure pid
  have hpage : Consumes (constructed (C.newPage p.pageClassName pid p.pageData)) [] page := by
    rw [hnewPage]
    exact Consumes.pure page
  refine (Consumes.readUTF p.pageClassName_lt).bind ?_
  refine (Consumes.readUTF p.idClassName_lt).bind ?_
  simp only [hid, hclass, Bool.not_true, Bool.false_eq_true, if_false]
  refine (consumes_readSize p.pageInfo_lt).bind ((consumes_readInts p.pageInfo).bind ?_)
  rw [← List.nil_append (_ ++ p.pageData)]
  refine hpid.bind ((consumes_readSize p.pageData_lt).bind ?_)
  exact (Consumes.read p.pageData).andThen hpage

/-! ## Records -/

/-- A record of the log. -/
inductive Record
  | abort (tid : UInt64)
  | commit (tid : UInt64)
  | update (tid : UInt64) (before after : PageImage)
  | begin (tid : UInt64)
  | checkpoint (entries : OffsetMap)
  deriving DecidableEq

namespace Record

def type : Record → UInt32
  | .abort _ => abortRecord
  | .commit _ => commitRecord
  | .update _ _ _ => updateRecord
  | .begin _ => beginRecord
  | .checkpoint _ => checkpointRecord

def tid : Record → UInt64
  | .abort tid | .commit tid | .update tid _ _ | .begin tid => tid
  | .checkpoint _ => noCheckpointId

/-- The entries of a checkpoint. -/
def encodeEntries (entries : OffsetMap) : List UInt8 :=
  entries.flatMap fun e => beBytes 8 e.1.toNat ++ beBytes 8 e.2.toNat

/-- What stands between the transaction and the start offset. -/
def body : Record → List UInt8
  | .update _ before after => before.encode ++ after.encode
  | .checkpoint entries => beBytes 4 entries.length ++ encodeEntries entries
  | .abort _ | .commit _ | .begin _ => []

def head (r : Record) : List UInt8 := beBytes 4 r.type.toNat ++ beBytes 8 r.tid.toNat

/-- The bytes of a record that starts at an offset. -/
def encode (r : Record) (start : ℕ) : List UInt8 := r.head ++ (r.body ++ beBytes 8 start)

def size (r : Record) : ℕ := r.body.length + 20

theorem length_encode (r : Record) (start : ℕ) : (r.encode start).length = r.size := by
  simp only [encode, head, size, List.length_append, beBytes_length]
  omega

/-- The record as a truncation at `min` copies it. -/
def moved (min : UInt64) : Record → Record
  | .checkpoint entries => .checkpoint (entries.map fun e => (e.1, LogFile.moved min e.2))
  | r => r

theorem length_encodeEntries (entries : OffsetMap) :
    (encodeEntries entries).length = 16 * entries.length := by
  induction entries with
  | nil => rfl
  | cons e entries ih =>
    simp only [encodeEntries, List.flatMap_cons, List.length_append, beBytes_length,
      List.length_cons] at ih ⊢
    omega

@[simp] theorem size_moved (min : UInt64) (r : Record) : (r.moved min).size = r.size := by
  cases r with
  | checkpoint entries => simp [moved, size, body, length_encodeEntries]
  | _ => rfl

/-- A truncation can read the record back. -/
def Readable (C : PageClasses) : Record → Prop
  | .update _ before after => before.Readable C ∧ after.Readable C
  | .checkpoint entries => entries.length < 2 ^ 31
  | .abort _ | .commit _ | .begin _ => True

theorem Readable.moved {C : PageClasses} {r : Record} (h : r.Readable C) (min : UInt64) :
    (r.moved min).Readable C := by
  cases r with
  | checkpoint entries => simpa [Record.moved, Readable] using h
  | _ => exact h

end Record

/-! ### Sequences of records -/

/-- Where a sequence of records that starts at an offset ends. -/
def endOf (start : ℕ) (rs : List Record) : ℕ := start + (rs.map Record.size).sum

@[simp] theorem endOf_nil (start : ℕ) : endOf start [] = start := rfl

@[simp] theorem endOf_cons (start : ℕ) (r : Record) (rs : List Record) :
    endOf start (r :: rs) = endOf (start + r.size) rs := by
  simp [endOf, Nat.add_assoc]

@[simp] theorem endOf_append (start : ℕ) (rs rs' : List Record) :
    endOf start (rs ++ rs') = endOf (endOf start rs) rs' := by
  simp [endOf, Nat.add_assoc]

theorem le_endOf (start : ℕ) (rs : List Record) : start ≤ endOf start rs := Nat.le_add_right _ _

def encodeAll : ℕ → List Record → List UInt8
  | _, [] => []
  | start, r :: rs => r.encode start ++ encodeAll (start + r.size) rs

theorem length_encodeAll (start : ℕ) (rs : List Record) :
    start + (encodeAll start rs).length = endOf start rs := by
  induction rs generalizing start with
  | nil => rfl
  | cons r rs ih =>
    rw [encodeAll, List.length_append, Record.length_encode, endOf_cons, ← ih]
    omega

theorem encodeAll_append (start : ℕ) (rs rs' : List Record) :
    encodeAll start (rs ++ rs') = encodeAll start rs ++ encodeAll (endOf start rs) rs' := by
  induction rs generalizing start with
  | nil => rfl
  | cons r rs ih => simp [encodeAll, ih]

/-- The records with their offsets. -/
def located : ℕ → List Record → List (ℕ × Record)
  | _, [] => []
  | start, r :: rs => (start, r) :: located (start + r.size) rs

theorem located_append (start : ℕ) (rs rs' : List Record) :
    located start (rs ++ rs') = located start rs ++ located (endOf start rs) rs' := by
  induction rs generalizing start with
  | nil => rfl
  | cons r rs ih => simp [located, ih]

theorem mem_located {start o : ℕ} {r : Record} {rs : List Record} :
    (o, r) ∈ located start rs ↔ ∃ l l', rs = l ++ r :: l' ∧ o = endOf start l := by
  constructor
  · intro h
    induction rs generalizing start with
    | nil => cases h
    | cons x rs ih =>
      simp only [located, List.mem_cons, Prod.mk.injEq] at h
      obtain ⟨rfl, rfl⟩ | h := h
      · exact ⟨[], rs, rfl, rfl⟩
      · obtain ⟨l, l', rfl, rfl⟩ := ih h
        exact ⟨x :: l, l', rfl, by simp⟩
  · rintro ⟨l, l', rfl, rfl⟩
    simp [located_append, located]

theorem le_of_mem_located {start o : ℕ} {r : Record} {rs : List Record}
    (h : (o, r) ∈ located start rs) : start ≤ o ∧ o < endOf start rs := by
  obtain ⟨l, l', rfl, rfl⟩ := mem_located.1 h
  have hend := le_endOf (endOf start l + r.size) l'
  have hsize : 0 < r.size := Nat.succ_pos _
  rw [endOf_append, endOf_cons]
  exact ⟨le_endOf start l, by omega⟩

/-- The offsets move with the start. -/
theorem located_add (start d : ℕ) (rs : List Record) :
    located (start + d) rs = (located start rs).map fun x => (x.1 + d, x.2) := by
  induction rs generalizing start with
  | nil => rfl
  | cons r rs ih =>
    simp only [located, List.map_cons]
    rw [← ih, Nat.add_right_comm]

theorem located_map {f : Record → Record} (hf : ∀ r, (f r).size = r.size) (start : ℕ)
    (rs : List Record) :
    located start (rs.map f) = (located start rs).map fun x => (x.1, f x.2) := by
  induction rs generalizing start with
  | nil => rfl
  | cons r rs ih => simp [located, hf, ih]

theorem endOf_map {f : Record → Record} (hf : ∀ r, (f r).size = r.size) (start : ℕ)
    (rs : List Record) : endOf start (rs.map f) = endOf start rs := by
  simp [endOf, Function.comp_def, hf]

theorem map_snd_located (start : ℕ) (rs : List Record) : (located start rs).map Prod.snd = rs := by
  induction rs generalizing start with
  | nil => rfl
  | cons r rs ih => simp [located, ih]

/-- The records from an offset on. -/
def recordsFrom (min : ℕ) (rs : List Record) : List Record :=
  ((located 8 rs).filter (min ≤ ·.1)).map Prod.snd

theorem recordsFrom_endOf (l r : List Record) : recordsFrom (endOf 8 l) (l ++ r) = r := by
  have hleft : (located 8 l).filter (endOf 8 l ≤ ·.1) = [] := by
    refine List.filter_eq_nil_iff.2 fun x hx => ?_
    have hlt := (le_of_mem_located (o := x.1) (r := x.2) hx).2
    simpa using hlt
  have hright : (located (endOf 8 l) r).filter (endOf 8 l ≤ ·.1) = located (endOf 8 l) r := by
    refine List.filter_eq_self.2 fun x hx => ?_
    simpa using (le_of_mem_located (o := x.1) (r := x.2) hx).1
  rw [recordsFrom, located_append, List.filter_append, hleft, hright, List.nil_append,
    map_snd_located]

/-! ## Appending records -/

namespace LogFile

variable {s : LogFile} {h : UInt64} {rs : List Record} {bs : List UInt8} {m : OffsetMap}

/-- The bytes of a log. -/
def fileOf (h : UInt64) (rs : List Record) : List UInt8 := beBytes 8 h.toNat ++ encodeAll 8 rs

theorem length_fileOf (h : UInt64) (rs : List Record) : (fileOf h rs).length = endOf 8 rs := by
  rw [fileOf, List.length_append, beBytes_length, length_encodeAll]

/-- The file has the records, then the bytes `bs` of one that is being written. -/
structure Logged (s : LogFile) (h : UInt64) (rs : List Record) (bs : List UInt8) (m : OffsetMap) :
    Prop where
  raf : s.raf = split (fileOf h rs ++ bs) []
  small : (fileOf h rs ++ bs).length < 2 ^ 63
  decided : s.recoveryUndecided = false
  offset : s.currentOffset = .ofNat (endOf 8 rs)
  map : s.tidToFirstLogRecord = m

theorem ends_onRaf {w : FileM LogException Unit} {b : List UInt8} (hw : Appends w b)
    (hs : s.Logged h rs bs m) : Ends (onRaf w) s fun _ s' => s'.Logged h rs (bs ++ b) m := by
  refine Ends.zoom ?_
  rw [hs.raf]
  refine (hw _ hs.small).imp fun _ f hf => ?_
  rw [List.append_assoc] at hf
  exact ⟨hf.1, hf.2, hs.decided, hs.offset, hs.map⟩

theorem toNat_ofNat_endOf (hs : s.Logged h rs bs m) :
    (UInt64.ofNat (endOf 8 rs)).toNat = endOf 8 rs := by
  have hlt := hs.small
  rw [List.length_append, length_fileOf] at hlt
  exact UInt64.toNat_ofNat_of_lt' (show endOf 8 rs < 2 ^ 64 by omega)

theorem ends_writeStart (hs : s.Logged h rs bs m) :
    Ends writeStart s fun _ s' => s'.Logged h rs (bs ++ beBytes 8 (endOf 8 rs)) m := by
  have hlong := Appends.writeLong (E := LogException) s.currentOffset
  rw [hs.offset, toNat_ofNat_endOf hs, ← hs.offset] at hlong
  exact ends_onRaf hlong hs

theorem ends_writeHead (r : Record) (hs : s.Logged h rs [] m) :
    Ends (writeHead r.type r.tid) s fun _ s' => s'.Logged h rs r.head m := by
  refine (ends_onRaf (Appends.writeInt r.type) hs).bind fun _ s₁ h₁ => ?_
  exact (ends_onRaf (Appends.writeLong r.tid) h₁).imp fun _ _ h₂ => h₂

/-- The record is complete. -/
theorem ends_setCurrentOffset {r : Record} (hs : s.Logged h rs (r.encode (endOf 8 rs)) m) :
    Ends setCurrentOffset s fun _ s' => s'.Logged h (rs ++ [r]) [] m := by
  have hfile : fileOf h (rs ++ [r]) = fileOf h rs ++ r.encode (endOf 8 rs) := by
    simp [fileOf, encodeAll_append, encodeAll]
  have hpointer : s.raf.pointer = endOf 8 (rs ++ [r]) := by
    rw [hs.raf, ← length_fileOf h (rs ++ [r]), hfile]
    rfl
  refine Ends.of_ok rfl ⟨?_, ?_, hs.decided, congrArg UInt64.ofNat hpointer, hs.map⟩
  · rw [List.append_nil, hfile]
    exact hs.raf
  · rw [List.append_nil, hfile]
    exact hs.small

theorem ends_remove (tid : UInt64) (hs : s.Logged h rs bs m) :
    Ends (remove tid) s fun _ s' => s'.Logged h rs bs (m.filter (·.1 ≠ tid)) := by
  refine Ends.of_ok rfl ⟨hs.raf, hs.small, hs.decided, hs.offset, ?_⟩
  exact congrArg (List.filter (·.1 ≠ tid)) hs.map

/-- The entries after `put`. -/
def enter (m : OffsetMap) (tid offset : UInt64) : OffsetMap :=
  (tid, offset) :: m.filter (·.1 ≠ tid)

theorem ends_put (tid offset : UInt64) :
    Ends (put tid offset) s fun _ s' =>
      s' = { s with tidToFirstLogRecord := enter s.tidToFirstLogRecord tid offset } ∧
        (enter s.tidToFirstLogRecord tid offset).length < 2 ^ 31 := by
  simp only [Ends, put, enter]
  split
  case h_1 a s' heq =>
    split at heq
    case isTrue hlt =>
      cases heq
      exact ⟨rfl, hlt⟩
    case isFalse => cases heq
  case h_2 e s' heq =>
    split at heq
    · cases heq
    · cases heq
      rfl

/-- The log has the records, or is going to be emptied by the first call. -/
def Ready (s : LogFile) (h : UInt64) (rs : List Record) (m : OffsetMap) : Prop :=
  s.Logged h rs [] m ∨
    s.recoveryUndecided = true ∧ h = noCheckpointId ∧ rs = [] ∧ s.tidToFirstLogRecord = m

theorem ends_preAppend (hs : s.Ready h rs m) :
    Ends preAppend s fun _ s' => s'.Logged h rs [] m := by
  obtain hs | ⟨hun, rfl, rfl, rfl⟩ := hs
  · refine Ends.ok_bind rfl (Ends.ok_bind rfl ?_)
    simp only [hs.decided]
    exact ⟨hs.raf, hs.small, rfl, hs.offset, hs.map⟩
  · refine Ends.ok_bind rfl (Ends.ok_bind rfl ?_)
    simp only [hun, if_true]
    refine Ends.ok_bind rfl (Ends.ok_bind rfl (Ends.ok_bind rfl ?_))
    -- the file is empty now
    have hlong := Appends.writeLong (E := LogException) noCheckpointId [] (by decide)
    refine Ends.bind (R := fun _ s' => s'.raf = split (fileOf noCheckpointId []) [] ∧
      s'.recoveryUndecided = false ∧ s'.tidToFirstLogRecord = s.tidToFirstLogRecord)
      (Ends.zoom (hlong.imp fun _ f hf => ⟨hf.1, rfl, rfl⟩)) fun _ s₁ h₁ => ?_
    obtain ⟨hraf, hdecided, hmap⟩ := h₁
    have hlength : s₁.raf.bytes.length = 8 := by
      rw [hraf]
      rfl
    refine Ends.ok_bind rfl ?_
    rw [hlength]
    refine Ends.ok_bind rfl ?_
    refine Ends.of_ok rfl ⟨?_, by decide, hdecided, rfl, hmap⟩
    rw [hraf]
    rfl

/-- The end of a record. -/
theorem ends_finish (r : Record) (hs : s.Logged h rs (r.head ++ r.body) m) :
    Ends (do writeStart; setCurrentOffset) s fun _ s' => s'.Logged h (rs ++ [r]) [] m := by
  refine (ends_writeStart hs).bind fun _ s₁ h₁ => ?_
  rw [List.append_assoc] at h₁
  exact ends_setCurrentOffset h₁

theorem ends_logCommit (tid : UInt64) (hs : s.Ready h rs m) :
    Ends (logCommit tid) s fun _ s' =>
      s'.Logged h (rs ++ [.commit tid]) [] (m.filter (·.1 ≠ tid)) := by
  refine (ends_preAppend hs).bind fun _ s₁ h₁ => ?_
  refine (ends_writeHead (.commit tid) h₁).bind fun _ s₂ h₂ => ?_
  refine (ends_writeStart h₂).bind fun _ s₃ h₃ => ?_
  refine (ends_setCurrentOffset (r := .commit tid) h₃).bind fun _ s₄ h₄ => ?_
  exact ends_remove tid h₄

theorem ends_logAbort (tid : UInt64) (hs : s.Ready h rs m) :
    Ends (logAbort tid) s fun _ s' =>
      s'.Logged h (rs ++ [.abort tid]) [] (m.filter (·.1 ≠ tid)) := by
  refine (ends_preAppend hs).bind fun _ s₁ h₁ => ?_
  refine (ends_preAppend (.inl h₁)).bind fun _ s₂ h₂ => ?_
  refine (ends_writeHead (.abort tid) h₂).bind fun _ s₃ h₃ => ?_
  refine (ends_writeStart h₃).bind fun _ s₄ h₄ => ?_
  refine (ends_setCurrentOffset (r := .abort tid) h₄).bind fun _ s₅ h₅ => ?_
  exact ends_remove tid h₅

theorem ends_logWrite (tid : UInt64) (before after : PageImage) (hs : s.Ready h rs m) :
    Ends (logWrite tid before after) s fun _ s' =>
      s'.Logged h (rs ++ [.update tid before after]) [] m := by
  refine (ends_preAppend hs).bind fun _ s₁ h₁ => ?_
  refine (ends_writeHead (.update tid before after) h₁).bind fun _ s₂ h₂ => ?_
  refine (ends_onRaf (appends_writePageData before) h₂).bind fun _ s₃ h₃ => ?_
  refine (ends_onRaf (appends_writePageData after) h₃).bind fun _ s₄ h₄ => ?_
  rw [List.append_assoc] at h₄
  exact ends_finish _ h₄

theorem ends_logXactionBegin {tid : UInt64} (hs : s.Ready h rs m)
    (htid : tid ∉ m.map Prod.fst) :
    Ends (logXactionBegin tid) s fun _ s' =>
      s'.Logged h (rs ++ [.begin tid]) [] (enter m tid (.ofNat (endOf 8 rs))) ∧
        (enter m tid (.ofNat (endOf 8 rs))).length < 2 ^ 31 := by
  have hmap : s.tidToFirstLogRecord = m := hs.elim Logged.map fun hs => hs.2.2.2
  have hany : s.tidToFirstLogRecord.any (·.1 = tid) = false := by
    rw [hmap, List.any_eq_false]
    rintro e he heq
    exact htid (List.mem_map.2 ⟨e, he, by simpa using heq⟩)
  refine Ends.ok_bind rfl ?_
  simp only [hany, Bool.false_eq_true, if_false]
  refine (ends_preAppend hs).bind fun _ s₁ h₁ => ?_
  refine (ends_writeHead (.begin tid) h₁).bind fun _ s₂ h₂ => ?_
  refine (ends_writeStart h₂).bind fun _ s₃ h₃ => Ends.ok_bind rfl ?_
  refine (ends_put tid s₃.currentOffset).bind fun _ s₄ h₄ => ?_
  obtain ⟨rfl, hlength⟩ := h₄
  rw [h₃.map, h₃.offset] at hlength
  have h₄ : Logged { s₃ with
      tidToFirstLogRecord := enter s₃.tidToFirstLogRecord tid s₃.currentOffset } h rs
      (Record.encode (.begin tid) (endOf 8 rs)) (enter m tid (.ofNat (endOf 8 rs))) :=
    ⟨h₃.raf, h₃.small, h₃.decided, h₃.offset, by rw [h₃.map, h₃.offset]⟩
  exact (ends_setCurrentOffset h₄).imp fun _ _ h₅ => ⟨h₅, hlength⟩

/-- A transaction that is in the map cannot begin. -/
theorem logXactionBegin_refused {tid : UInt64} (htid : tid ∈ s.tidToFirstLogRecord.map Prod.fst) :
    logXactionBegin tid s = .error (.thrown .doubleBegin) s := by
  have hany : s.tidToFirstLogRecord.any (·.1 = tid) = true := by
    obtain ⟨e, he, rfl⟩ := List.mem_map.1 htid
    exact List.any_eq_true.2 ⟨e, he, by simp⟩
  have hget : (get : LogM LogFile) s = .ok s s := rfl
  simp only [logXactionBegin, Bind.bind, EStateM.bind, hget, hany, if_true]
  rfl

theorem appends_writeEntry (e : UInt64 × UInt64) :
    Appends (writeEntry e) (beBytes 8 e.1.toNat ++ beBytes 8 e.2.toNat) :=
  (Appends.writeLong _).bind (Appends.writeLong _)

theorem onRaf_ok {α : Type} {w : FileM LogException α} {a : α} {f : RandomAccessFile}
    (hw : w s.raf = .ok a f) : onRaf w s = .ok a { s with raf := f } := by
  simp only [onRaf, zoom, hw]

/-- Going back to write the header. -/
theorem ends_writeHeader {h' : UInt64} {k : LogM Unit} {Q : Unit → LogFile → Prop}
    (hs : s.Logged h rs bs m) (hk : ∀ s' : LogFile, s'.Logged h' rs bs m → Ends k s' Q) :
    Ends (do
      let p ← onRaf getFilePointer
      onRaf (seek 0)
      onRaf (writeLong h')
      onRaf (seek p)
      k) s Q := by
  let rest := encodeAll 8 rs ++ bs
  have hfile : ∀ h, fileOf h rs ++ bs = beBytes 8 h.toNat ++ rest := fun h =>
    List.append_assoc _ _ _
  have hlength : (fileOf h' rs ++ bs).length = (fileOf h rs ++ bs).length := by
    simp only [List.length_append, length_fileOf]
  have hsmall := hs.small
  have hstart : (seek 0 : FileM LogException Unit) s.raf =
      .ok () (split [] (beBytes 8 h.toNat ++ rest)) := by
    refine seek_ok ?_ rfl (by decide)
    rw [hs.raf, hfile]
    exact List.append_nil _
  have hwrite : (writeLong h' : FileM LogException Unit) (split [] (beBytes 8 h.toNat ++ rest)) =
      .ok () (split (beBytes 8 h'.toNat) rest) :=
    write_over rest (by simp) (by simp)
  have hend : (seek (.ofNat s.raf.pointer) : FileM LogException Unit)
      (split (beBytes 8 h'.toNat) rest) = .ok () (split (fileOf h' rs ++ bs) []) := by
    refine seek_ok ?_ ?_ (hlength ▸ hsmall)
    · rw [hfile, List.append_nil]
      rfl
    · rw [hs.raf, hlength]
      exact UInt64.toNat_ofNat_of_lt' (show (fileOf h rs ++ bs).length < 2 ^ 64 by omega)
  refine Ends.ok_bind rfl (Ends.ok_bind (onRaf_ok hstart) ?_)
  refine Ends.ok_bind (onRaf_ok hwrite) (Ends.ok_bind (onRaf_ok hend) ?_)
  exact hk _ ⟨rfl, hlength ▸ hsmall, hs.decided, hs.offset, hs.map⟩

theorem ends_writeCheckpoint (els : IterationOrder) (hs : s.Ready h rs m) (hm : m.length < 2 ^ 31) :
    Ends (writeCheckpoint els) s fun _ s' =>
      s'.Logged (.ofNat (endOf 8 rs)) (rs ++ [.checkpoint (els.1 m)]) [] m := by
  refine (ends_preAppend hs).bind fun _ s₁ h₁ => Ends.ok_bind rfl ?_
  have hpointer : s₁.raf.pointer = endOf 8 rs := by
    rw [h₁.raf, ← length_fileOf h rs]
    exact congrArg List.length (List.append_nil _)
  rw [hpointer]
  refine (ends_writeHead (.checkpoint (els.1 m)) h₁).bind fun _ s₂ h₂ => Ends.ok_bind rfl ?_
  rw [h₂.map]
  refine (ends_onRaf (appends_writeSize hm) h₂).bind fun _ s₃ h₃ => ?_
  refine (ends_onRaf (Appends.forM appends_writeEntry (els.1 m)) h₃).bind fun _ s₄ h₄ => ?_
  refine ends_writeHeader h₄ fun s₅ h₅ => ?_
  refine ends_finish (.checkpoint (els.1 m)) ?_
  rw [List.append_assoc] at h₅
  rwa [Record.body, (els.2 m).length_eq]

end LogFile

end Courses.SimpleDb
