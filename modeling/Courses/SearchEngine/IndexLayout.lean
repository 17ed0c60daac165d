import Courses.SearchEngine.IndexChecksum

/-!
# The layout of an index file

Where the writer of `hw3/fileindexwriter.cc` writes. For any element writer a table is a
header, bucket records, element positions and elements that tile the range the answer
accounts for, whatever the order in which they are written. So an index file has no holes
and is as long as `WriteIndex` says, unless an element accounts for less than it writes: a
word whose length is 0 in 16 bits is taken for a failed write.
-/
namespace Courses.SearchEngine

open Courses.Lib Courses.Lib.DiskM

/-! ## The parts of a table -/

/-- A call of an element writer: the element, the range its answer accounts for, and the
ranges it wrote. -/
structure ElementWrite (V : Type) where
  entry : HTKeyValue V
  range : Range
  log : Multiset Range

section Parts

variable {V : Type}

def elementRanges (elements : List (ElementWrite V)) : Multiset Range :=
  (elements.map ElementWrite.range : List Range)

def elementLogs (elements : List (ElementWrite V)) : Multiset Range :=
  (elements.map ElementWrite.log).sum

/-- `k` consecutive ranges of `n` bytes. -/
def rangesOf (n off k : ℕ) : Multiset Range := ((List.range k).map fun i => (off + n * i, n) : List Range)

/-- The header, the bucket records, the element positions and the elements of a table that was
written at `off` with the answer `size`. Each element is related as `R` says, and `log` is all that
was written. -/
structure TableParts (R : ElementWrite V → Prop) (t : Table V) (off size : ℕ)
    (log positions : Multiset Range) (elements : List (ElementWrite V)) : Prop where
  entries : elements.map ElementWrite.entry = t.entries
  related : ∀ w ∈ elements, R w
  each : positions.card = t.entries.length ∧ ∀ r ∈ positions, r.2 = 4
  log : log = {(off, 4)} + rangesOf 8 (off + 4) t.buckets.length + positions + elementLogs elements
  tiles : Tiles ({(off, 4)} + rangesOf 8 (off + 4) t.buckets.length + positions +
    elementRanges elements) off (off + size)

/-- A writer that reports at most `bound` bytes for an element that is `ok`; what it reports and
what it writes are related by `R`. -/
def Reports (fn : WriteElementFn V) (bound : HTKeyValue V → ℕ) (R : ElementWrite V → Prop)
    (ok : HTKeyValue V → Prop) : Prop :=
  ∀ off kv d, ok kv → off + bound kv < 2 ^ 32 → Completes (fn off kv) d fun n d' =>
    n ≤ bound kv ∧ ∃ log, Wrote d log d' ∧ R ⟨kv, (off, n), log⟩

/-- What is written is exactly what is reported. -/
def ElementWrite.Exact (w : ElementWrite V) : Prop := Fills w.log w.range.1 (w.range.1 + w.range.2)

/-- What is written is exactly what is reported, and nothing is written twice. -/
def ElementWrite.ExactOnce (w : ElementWrite V) : Prop :=
  Tiles w.log w.range.1 (w.range.1 + w.range.2)

/-- The bytes of a table whose elements take the given numbers of bytes. -/
def tableSize (size : HTKeyValue V → ℕ) (t : Table V) : ℕ :=
  4 + 8 * t.buckets.length + (t.entries.map fun e => 4 + size e).sum

theorem elementRanges_cons (w : ElementWrite V) (elements : List (ElementWrite V)) :
    elementRanges (w :: elements) = {w.range} + elementRanges elements := rfl

theorem elementRanges_append (elements elements' : List (ElementWrite V)) :
    elementRanges (elements ++ elements') = elementRanges elements + elementRanges elements' := by
  simp [elementRanges]

theorem elementLogs_cons (w : ElementWrite V) (elements : List (ElementWrite V)) :
    elementLogs (w :: elements) = w.log + elementLogs elements := by simp [elementLogs]

theorem elementLogs_append (elements elements' : List (ElementWrite V)) :
    elementLogs (elements ++ elements') = elementLogs elements + elementLogs elements' := by
  simp [elementLogs]

theorem rangesOf_succ (n off k : ℕ) :
    rangesOf n off (k + 1) = {(off, n)} + rangesOf n (off + n) k := by
  have hshift : (fun i => (off + n * i, n)) ∘ Nat.succ = fun i => (off + n + n * i, n) := by
    funext i
    simp only [Function.comp_apply, Nat.succ_eq_add_one, Nat.mul_add, Nat.mul_one, Nat.add_assoc,
      Nat.add_comm n]
  rw [rangesOf, rangesOf, List.range_succ_eq_map, List.map_cons, List.map_map, hshift]
  rfl

theorem tiles_rangesOf (n off k : ℕ) : Tiles (rangesOf n off k) off (off + n * k) := by
  induction k generalizing off with
  | zero => exact tiles_zero off
  | succ k ih =>
    have hend : off + n * (k + 1) = off + n + n * k := by
      rw [Nat.mul_succ]
      omega
    rw [rangesOf_succ, hend]
    exact (tiles_singleton off n).add (ih (off + n)) (Nat.le_add_right _ _) (Nat.le_add_right _ _)

/-- Elements that write what they account for write together what their ranges have. -/
theorem covers_elementLogs_pos {elements : List (ElementWrite V)} (h : ∀ w ∈ elements, w.Exact)
    (x : ℕ) : 0 < covers (elementLogs elements) x ↔ 0 < covers (elementRanges elements) x := by
  induction elements with
  | nil => rfl
  | cons w elements ih =>
    have hw := h w List.mem_cons_self x
    have hrest := ih fun w hw => h w (List.mem_cons_of_mem _ hw)
    have hone : 0 < covers {w.range} x ↔ 0 < covers w.log x :=
      ((tiles_singleton w.range.1 w.range.2).fills x).trans hw.symm
    rw [elementLogs_cons, elementRanges_cons, covers_add, covers_add, Nat.add_pos_iff_pos_or_pos,
      Nat.add_pos_iff_pos_or_pos, hone, hrest]

theorem covers_elementLogs {elements : List (ElementWrite V)} (h : ∀ w ∈ elements, w.ExactOnce)
    (x : ℕ) : covers (elementLogs elements) x = covers (elementRanges elements) x := by
  induction elements with
  | nil => rfl
  | cons w elements ih =>
    have hw := h w List.mem_cons_self x
    have hrest := ih fun w hw => h w (List.mem_cons_of_mem _ hw)
    rw [elementLogs_cons, elementRanges_cons, covers_add, covers_add, covers_singleton, hw, hrest]
    rfl

variable {R : ElementWrite V → Prop} {t : Table V} {off size : ℕ} {log positions : Multiset Range}
  {elements : List (ElementWrite V)}

/-- Every byte that a table accounts for is written, and no other. -/
theorem TableParts.fills (h : TableParts R t off size log positions elements)
    (hexact : ∀ w ∈ elements, w.Exact) : Fills log off (off + size) := by
  intro x
  rw [← h.tiles.fills x, h.log, covers_add, covers_add _ (elementRanges elements),
    Nat.add_pos_iff_pos_or_pos, Nat.add_pos_iff_pos_or_pos, covers_elementLogs_pos hexact]

/-- No byte is written twice if no element writes one twice. -/
theorem TableParts.tiles_log (h : TableParts R t off size log positions elements)
    (hexact : ∀ w ∈ elements, w.ExactOnce) : Tiles log off (off + size) := by
  intro x
  rw [← h.tiles x, h.log, covers_add, covers_add _ (elementRanges elements),
    covers_elementLogs hexact]

theorem TableParts.size_pos (h : TableParts R t off size log positions elements) : 0 < size := by
  have hfirst := (h.tiles.fills off).1 (covers_pos.2 ⟨(off, 4), by simp, le_rfl, by simp⟩)
  omega

end Parts

/-! ## The writer -/

section Write

variable {V : Type} {fn : WriteElementFn V} {bound : HTKeyValue V → ℕ} {R : ElementWrite V → Prop}
  {ok : HTKeyValue V → Prop}

/-- The elements of a chain, one behind the other. -/
structure ChainParts (R : ElementWrite V → Prop) (chain : List (HTKeyValue V)) (lo size : ℕ)
    (elements : List (ElementWrite V)) : Prop where
  entries : elements.map ElementWrite.entry = chain
  related : ∀ w ∈ elements, R w
  tiles : Tiles (elementRanges elements) lo (lo + size)

theorem writeBucketRecord_wrote (chain : List (HTKeyValue V)) (brOffset bOffset : ℕ) (d : Disk) :
    Completes (writeBucketRecord chain brOffset bOffset) d fun n d' =>
      n = 8 ∧ Wrote d {(brOffset, 8)} d' := by
  rw [writeBucketRecord]
  apply completes_fseek
  rw [if_neg (by decide)]
  apply completes_fwrite_at
  have hlen : (beBytes 4 chain.length ++ beBytes 4 bOffset).length = 8 := by simp
  rw [hlen]
  intro d' _ hwrote
  exact completes_pure ⟨rfl, hwrote⟩

theorem writeBucketLoop_parts (hfn : Reports fn bound R ok) (chain : List (HTKeyValue V))
    (hok : ∀ kv ∈ chain, ok kv) {off blen next : ℕ} (hoff : off + 4 * chain.length < 2 ^ 32)
    (hnext : next + (chain.map bound).sum < 2 ^ 32) (hblen : blen + (chain.map bound).sum < 2 ^ 32)
    (d : Disk) : Completes (writeBucketLoop fn chain off blen next) d fun n d' =>
      ∃ size elements, n = blen + size ∧ size ≤ (chain.map bound).sum ∧
        ChainParts R chain next size elements ∧
        Wrote d (rangesOf 4 off chain.length + elementLogs elements) d' := by
  induction chain generalizing off blen next d with
  | nil =>
    refine completes_pure ⟨0, [], rfl, le_rfl, ⟨rfl, by simp, tiles_zero next⟩, ?_⟩
    exact wrote_zero rfl rfl rfl
  | cons kv chain ih =>
    rw [List.length_cons] at hoff
    rw [List.map_cons, List.sum_cons] at hnext hblen
    rw [writeBucketLoop]
    apply completes_fseek
    rw [if_neg (by decide)]
    apply completes_fwrite_at
    have hlen : (beBytes 4 next).length = 4 := beBytes_length 4 next
    rw [hlen]
    intro d₁ _ hpos
    refine (hfn next kv d₁ (hok kv List.mem_cons_self) (by omega)).bind ?_
    rintro n d₂ ⟨hn, log, hlog, hR⟩
    rw [u32_eq (by omega), u32_eq (by omega), u32_eq (by omega)]
    refine (ih (fun kv hkv => hok kv (List.mem_cons_of_mem _ hkv)) (by omega) (by omega) (by omega)
      d₂).mono ?_
    rintro m d₃ ⟨size, elements, rfl, hsize, hparts, hwrote⟩
    refine ⟨n + size, ⟨kv, (next, n), log⟩ :: elements, by omega, ?_, ⟨?_, ?_, ?_⟩, ?_⟩
    · rw [List.map_cons, List.sum_cons]
      omega
    · rw [List.map_cons, hparts.entries]
    · exact List.forall_mem_cons.2 ⟨hR, hparts.related⟩
    · rw [elementRanges_cons, ← Nat.add_assoc]
      exact (tiles_singleton next n).add hparts.tiles (Nat.le_add_right _ _) (Nat.le_add_right _ _)
    · have hall := (hpos.trans hlog).trans hwrote
      have hsum : {(off, 4)} + log + (rangesOf 4 (off + 4) chain.length + elementLogs elements) =
          rangesOf 4 off (chain.length + 1) + (log + elementLogs elements) := by
        rw [rangesOf_succ]
        abel
      rw [List.length_cons, elementLogs_cons, ← hsum]
      exact hall

/-- The position array of a bucket and its elements. -/
theorem writeBucket_parts (hfn : Reports fn bound R ok) (chain : List (HTKeyValue V))
    (hok : ∀ kv ∈ chain, ok kv) {off : ℕ}
    (hsize : off + (chain.map fun kv => 4 + bound kv).sum < 2 ^ 32) (d : Disk) :
    Completes (writeBucket fn chain off) d fun n d' =>
      ∃ size elements, n = 4 * chain.length + size ∧ size ≤ (chain.map bound).sum ∧
        ChainParts R chain (off + 4 * chain.length) size elements ∧
        Wrote d (rangesOf 4 off chain.length + elementLogs elements) d' := by
  have hsum : (chain.map fun kv => 4 + bound kv).sum = 4 * chain.length + (chain.map bound).sum := by
    rw [List.sum_map_add]
    simp [Nat.mul_comm]
  rw [hsum] at hsize
  rw [writeBucket, u32_eq (by omega), u32_eq (by omega)]
  exact writeBucketLoop_parts hfn chain hok (by omega) (by omega) (by omega) d

/-- What the loop over the buckets writes: bucket records from `recOff` on, element positions and
elements from `lo` on. -/
structure BucketParts (R : ElementWrite V → Prop) (chains : List (List (HTKeyValue V)))
    (lo hi : ℕ) (positions : Multiset Range) (elements : List (ElementWrite V)) : Prop where
  entries : elements.map ElementWrite.entry = chains.flatten
  related : ∀ w ∈ elements, R w
  each : positions.card = chains.flatten.length ∧ ∀ r ∈ positions, r.2 = 4
  tiles : Tiles (positions + elementRanges elements) lo hi
  le : lo ≤ hi

theorem rangesOf_each (n off k : ℕ) :
    (rangesOf n off k).card = k ∧ ∀ r ∈ rangesOf n off k, r.2 = n := by
  constructor
  · simp [rangesOf]
  · intro r hr
    obtain ⟨i, -, rfl⟩ := List.mem_map.1 (Multiset.mem_coe.1 hr)
    rfl

/-- One more bucket in front. -/
theorem BucketParts.cons {chain : List (HTKeyValue V)} {chains : List (List (HTKeyValue V))}
    {lo size hi : ℕ} {positions : Multiset Range} {elements rest : List (ElementWrite V)}
    (hchain : ChainParts R chain (lo + 4 * chain.length) size elements)
    (hrest : BucketParts R chains (lo + (4 * chain.length + size)) hi positions rest) :
    BucketParts R (chain :: chains) lo hi (rangesOf 4 lo chain.length + positions)
      (elements ++ rest) where
  entries := by rw [List.map_append, hchain.entries, hrest.entries, List.flatten_cons]
  related := fun w hw => (List.mem_append.1 hw).elim (hchain.related w) (hrest.related w)
  each := by
    obtain ⟨hcard, hlen⟩ := rangesOf_each 4 lo chain.length
    rw [Multiset.card_add, hcard, hrest.each.1, List.flatten_cons, List.length_append]
    refine ⟨rfl, fun r hr => ?_⟩
    exact (Multiset.mem_add.1 hr).elim (hlen r) (hrest.each.2 r)
  tiles := by
    have hsum : rangesOf 4 lo chain.length + positions + elementRanges (elements ++ rest) =
        rangesOf 4 lo chain.length + elementRanges elements + (positions + elementRanges rest) := by
      rw [elementRanges_append]
      abel
    have hle := hrest.le
    have hbucket := (tiles_rangesOf 4 lo chain.length).add hchain.tiles (Nat.le_add_right _ _)
      (Nat.le_add_right _ _)
    rw [Nat.add_assoc] at hbucket
    rw [hsum]
    exact hbucket.add hrest.tiles (Nat.le_add_right _ _) hle
  le := (Nat.le_add_right _ _).trans hrest.le

theorem writeBuckets_parts (hfn : Reports fn bound R ok) (chains : List (List (HTKeyValue V)))
    (hok : ∀ kv ∈ chains.flatten, ok kv) {recOff next : ℕ}
    (hrec : recOff + 8 * chains.length < 2 ^ 32)
    (hnext : next + (chains.flatten.map fun kv => 4 + bound kv).sum < 2 ^ 32) (d : Disk) :
    Completes (writeBuckets fn chains recOff next) d fun n d' =>
      ∃ positions elements, n ≤ next + (chains.flatten.map fun kv => 4 + bound kv).sum ∧
        BucketParts R chains next n positions elements ∧
        Wrote d (rangesOf 8 recOff chains.length + positions + elementLogs elements) d' := by
  induction chains generalizing recOff next d with
  | nil =>
    refine completes_pure ⟨0, [], le_rfl, ⟨rfl, by simp, ⟨rfl, by simp⟩, tiles_zero next, le_rfl⟩, ?_⟩
    exact wrote_zero rfl rfl rfl
  | cons chain chains ih =>
    rw [List.length_cons] at hrec
    rw [List.flatten_cons, List.map_append, List.sum_append] at hnext
    have hsum : (chain.map fun kv => 4 + bound kv).sum = 4 * chain.length + (chain.map bound).sum := by
      rw [List.sum_map_add]
      simp [Nat.mul_comm]
    have hok' : ∀ kv ∈ chains.flatten, ok kv := fun kv hkv => hok kv (by
      rw [List.flatten_cons]
      exact List.mem_append_right _ hkv)
    rw [writeBuckets]
    refine (writeBucketRecord_wrote chain recOff next d).bind ?_
    rintro _ d₁ ⟨rfl, hrecord⟩
    rw [u32_eq (by omega)]
    -- the rest of the loop, once this bucket is written
    have hrest {size : ℕ} {elements : List (ElementWrite V)} {d₂ : Disk}
        (hsize : size ≤ (chain.map bound).sum)
        (hchain : ChainParts R chain (next + 4 * chain.length) size elements)
        (hwrote : Wrote d₁ (rangesOf 4 next chain.length + elementLogs elements) d₂) :
        Completes (writeBuckets fn chains (recOff + 8) (next + (4 * chain.length + size))) d₂
          fun n d' => ∃ positions elements,
            n ≤ next + ((chain :: chains).flatten.map fun kv => 4 + bound kv).sum ∧
            BucketParts R (chain :: chains) next n positions elements ∧
            Wrote d (rangesOf 8 recOff (chain :: chains).length + positions + elementLogs elements)
              d' := by
      refine (ih hok' (by omega) (by omega) d₂).mono ?_
      rintro n d₃ ⟨positions, rest, hn, hparts, hwrote'⟩
      refine ⟨rangesOf 4 next chain.length + positions, elements ++ rest, ?_, hparts.cons hchain, ?_⟩
      · rw [List.flatten_cons, List.map_append, List.sum_append]
        omega
      · have hlog : {(recOff, 8)} + (rangesOf 4 next chain.length + elementLogs elements) +
            (rangesOf 8 (recOff + 8) chains.length + positions + elementLogs rest) =
            rangesOf 8 recOff (chains.length + 1) + (rangesOf 4 next chain.length + positions) +
              elementLogs (elements ++ rest) := by
          rw [rangesOf_succ, elementLogs_append]
          abel
        rw [List.length_cons, ← hlog]
        exact (hrecord.trans hwrote).trans hwrote'
    by_cases hempty : chain.length = 0
    · rw [if_pos hempty]
      obtain rfl := List.length_eq_zero_iff.1 hempty
      have hnone : ChainParts R [] (next + 4 * 0) 0 [] := ⟨rfl, by simp, tiles_zero _⟩
      exact hrest (Nat.zero_le _) hnone (wrote_zero rfl rfl rfl)
    · rw [if_neg hempty]
      refine (writeBucket_parts hfn chain (fun kv hkv => hok kv ?_) (by omega) d₁).bind ?_
      · rw [List.flatten_cons]
        exact List.mem_append_left _ hkv
      · rintro _ d₂ ⟨size, elements, rfl, hsize, hchain, hwrote⟩
        rw [u32_eq (by omega)]
        exact hrest hsize hchain hwrote

/-- `WriteHashTable` writes a header, bucket records, element positions and elements, which tile
the range its answer accounts for. -/
theorem writeHashTable_parts (hfn : Reports fn bound R ok) (t : Table V)
    (hok : ∀ kv ∈ t.entries, ok kv) {off : ℕ} (hsize : off + tableSize bound t < 2 ^ 32) (d : Disk) :
    Completes (writeHashTable t off fn) d fun size d' => size ≤ tableSize bound t ∧
      ∃ log positions elements, Wrote d log d' ∧ TableParts R t off size log positions elements := by
  unfold tableSize at hsize ⊢
  rw [writeHashTable]
  apply completes_fseek
  rw [if_neg (by decide)]
  apply completes_fwrite_at
  have hlen : (beBytes 4 t.buckets.length).length = 4 := beBytes_length 4 _
  rw [hlen]
  intro d₁ _ hheader
  rw [if_neg (by decide)]
  have hstart : u32 (u32 (off + 4) + t.buckets.length * 8) = off + 4 + 8 * t.buckets.length := by
    rw [u32_eq (n := off + 4) (by omega), u32_eq (by omega), Nat.mul_comm]
  dsimp only
  rw [hstart, u32_eq (n := off + 4) (by omega)]
  refine (writeBuckets_parts hfn t.buckets hok (by omega) (by unfold Table.entries at hsize; omega)
    d₁).bind ?_
  rintro next d₂ ⟨positions, elements, hnext, hparts, hwrote⟩
  have hle := hparts.le
  have hnext' : next ≤ off + 4 + 8 * t.buckets.length + (t.entries.map fun e => 4 + bound e).sum := hnext
  have hret : sub32 next off = next - off := by
    rw [sub32]
    omega
  refine completes_pure ⟨by omega, _, positions, elements, hheader.trans hwrote, hparts.entries,
    hparts.related, hparts.each, by simp only [add_assoc], ?_⟩
  have hrecords := (tiles_singleton off 4).add (tiles_rangesOf 8 (off + 4) t.buckets.length)
    (Nat.le_add_right _ _) (Nat.le_add_right _ _)
  rw [hret, Nat.add_sub_cancel' (by omega), add_assoc]
  exact hrecords.add hparts.tiles (by omega) hle

end Write

/-! ## The element writers -/

def nameSize (kv : HTKeyValue CString) : ℕ := 10 + u16 (strlen kv.value)

def positionsSize (kv : HTKeyValue (List UInt32)) : ℕ := 12 + 4 * kv.value.length

def wordSize (kv : HTKeyValue WordDocSet) : ℕ :=
  6 + u16 (strlen kv.value.word) + tableSize positionsSize kv.value.docIDs

/-- The bytes of a file with these tables. -/
def indexSize (mi : MemIndex) (dt : DocTable) : ℕ :=
  HEADER_SIZE + tableSize nameSize dt + tableSize wordSize mi.toTable

/-- The position lists of the index are not empty. -/
def NonemptyPositions (kv : HTKeyValue WordDocSet) : Prop :=
  ∀ e ∈ kv.value.docIDs.entries, PositionsOk e

/-- A word of length 0 in 16 bits writes more than it reports. -/
def WordWrite (w : ElementWrite WordDocSet) : Prop :=
  if u16 (strlen w.entry.value.word) = 0 then w.range.2 < total w.log else w.ExactOnce

theorem length_take_u16 (s : CString) : (s.bytes.take (u16 (strlen s))).length = u16 (strlen s) := by
  rw [List.length_take]
  exact min_eq_left (Nat.mod_le _ _)

theorem writeDocidDocnameFn_reports :
    Reports writeDocidDocnameFn nameSize ElementWrite.ExactOnce fun _ => True := by
  intro off kv d _ hsize
  unfold nameSize at hsize ⊢
  have hlen : (beBytes 8 kv.key.toNat ++ beBytes 2 (u16 (strlen kv.value))).length = 10 := by simp
  rw [writeDocidDocnameFn]
  apply completes_fseek
  rw [if_neg (by decide)]
  apply completes_fwrite_at
  rw [hlen]
  intro d₁ hpos hheader
  rw [if_neg (by decide)]
  apply completes_fwrite_wrote
  rw [length_take_u16, Nat.div_one]
  intro d₂ _ hname
  rw [hpos] at hname
  rw [if_neg (by simp), u32_eq (by omega)]
  refine completes_pure ⟨le_rfl, _, hheader.trans hname, ?_⟩
  have htiles := (tiles_singleton off 10).add (tiles_singleton (off + 10) (u16 (strlen kv.value)))
    (Nat.le_add_right _ _) (Nat.le_add_right _ _)
  rwa [Nat.add_assoc] at htiles

theorem writePositions_wrote (positions : List UInt32) {count : ℕ}
    (hcount : count + 4 * positions.length < 2 ^ 32) (d : Disk) :
    Completes (writePositions positions count) d fun n d' =>
      n = some (count + 4 * positions.length) ∧ Wrote d (rangesOf 4 d.pos positions.length) d' := by
  induction positions generalizing count d with
  | nil => exact completes_pure ⟨rfl, wrote_zero rfl rfl rfl⟩
  | cons position positions ih =>
    rw [List.length_cons] at hcount
    rw [writePositions]
    apply completes_fwrite_wrote
    have hlen : (beBytes 4 position.toNat).length = 4 := beBytes_length 4 _
    rw [hlen]
    intro d₁ hpos hwrote
    rw [if_neg (by decide), u32_eq (by omega)]
    refine (ih (by omega) d₁).mono ?_
    rintro _ d₂ ⟨rfl, hrest⟩
    rw [List.length_cons, rangesOf_succ, ← hpos]
    refine ⟨?_, hwrote.trans hrest⟩
    rw [Option.some_inj]
    omega

theorem writeDocPositionListFn_reports :
    Reports writeDocPositionListFn positionsSize ElementWrite.ExactOnce PositionsOk := by
  intro off kv d hok hsize
  unfold positionsSize at hsize ⊢
  have hlen : (beBytes 8 kv.key.toNat ++ beBytes 4 kv.value.length).length = 12 := by simp
  have hne : kv.value.length ≠ 0 := fun h => hok (List.length_eq_zero_iff.1 h)
  rw [writeDocPositionListFn]
  apply completes_fseek
  rw [if_neg (by decide)]
  apply completes_fwrite_at
  rw [hlen]
  intro d₁ hpos hheader
  rw [if_neg (by decide)]
  apply completes_verify (by simpa using hne)
  refine (writePositions_wrote kv.value (by omega) d₁).bind ?_
  rintro _ d₂ ⟨rfl, hpositions⟩
  rw [hpos] at hpositions
  apply completes_verify (by simp)
  refine completes_pure ⟨le_rfl, _, hheader.trans hpositions, ?_⟩
  have htiles := (tiles_singleton off 12).add (tiles_rangesOf 4 (off + 12) kv.value.length)
    (Nat.le_add_right _ _) (Nat.le_add_right _ _)
  rwa [Nat.add_assoc] at htiles

theorem writeWordDocSetFn_reports :
    Reports writeWordDocSetFn wordSize WordWrite NonemptyPositions := by
  intro off kv d hok hsize
  unfold wordSize at hsize ⊢
  have hhead (n : ℕ) : (beBytes 2 (u16 (strlen kv.value.word)) ++ beBytes 4 n).length = 6 := by simp
  rw [writeWordDocSetFn, u32_eq (by omega)]
  refine (writeHashTable_parts writeDocPositionListFn_reports kv.value.docIDs hok (by omega) d).bind ?_
  rintro htlen d₁ ⟨hhtlen, log, positions, elements, hdocs, hparts⟩
  apply completes_fseek
  rw [if_neg (by decide)]
  apply completes_fwrite_at
  rw [hhead]
  intro d₂ hpos hheader
  rw [if_neg (by decide)]
  apply completes_fwrite_wrote
  rw [length_take_u16]
  intro d₃ _ hword
  rw [hpos] at hword
  have hwrote := (hdocs.trans hheader).trans hword
  by_cases hzero : u16 (strlen kv.value.word) = 0
  · -- no whole item of 0 bytes is written, which the source takes for an error
    have htotal : 0 < total (log + {(off, 6)} + {(off + 6, u16 (strlen kv.value.word))}) := by simp
    rw [if_pos (by simp [hzero])]
    refine completes_pure ⟨Nat.zero_le _, _, hwrote, ?_⟩
    rw [WordWrite, if_pos hzero]
    exact htotal
  · have htiles := hparts.tiles_log hparts.related
    have hfront := (tiles_singleton off 6).add
      (tiles_singleton (off + 6) (u16 (strlen kv.value.word))) (Nat.le_add_right _ _)
      (Nat.le_add_right _ _)
    have hall := hfront.add htiles (by omega) (Nat.le_add_right _ _)
    rw [if_neg (by rw [Nat.div_self (Nat.pos_of_ne_zero hzero)]; simp), u32_eq (by omega)]
    refine completes_pure ⟨by omega, _, hwrote, ?_⟩
    rw [WordWrite, if_neg hzero, ElementWrite.ExactOnce]
    have hsum : log + {(off, 6)} + {(off + 6, u16 (strlen kv.value.word))} =
        {(off, 6)} + {(off + 6, u16 (strlen kv.value.word))} + log := by abel
    have hend : off + 6 + u16 (strlen kv.value.word) + htlen =
        off + (6 + u16 (strlen kv.value.word) + htlen) := by omega
    rw [hsum, ← hend]
    exact hall

/-! ## The file -/

/-- What the words of the index write altogether. -/
theorem total_elementLogs {elements : List (ElementWrite WordDocSet)}
    (h : ∀ w ∈ elements, WordWrite w) :
    total (elementRanges elements) ≤ total (elementLogs elements) ∧
      ((∃ w ∈ elements, u16 (strlen w.entry.value.word) = 0) →
        total (elementRanges elements) < total (elementLogs elements)) := by
  induction elements with
  | nil => exact ⟨le_rfl, fun ⟨w, hw, _⟩ => absurd hw List.not_mem_nil⟩
  | cons w elements ih =>
    obtain ⟨hle, hlt⟩ := ih fun w hw => h w (List.mem_cons_of_mem _ hw)
    have hw := h w List.mem_cons_self
    rw [WordWrite] at hw
    rw [elementRanges_cons, elementLogs_cons, total_add, total_add, total_singleton]
    by_cases hzero : u16 (strlen w.entry.value.word) = 0
    · rw [if_pos hzero] at hw
      exact ⟨by omega, fun _ => by omega⟩
    · rw [if_neg hzero] at hw
      have htotal := hw.total_eq (Nat.le_add_right _ _)
      refine ⟨by omega, fun ⟨w', hw', hzero'⟩ => ?_⟩
      rcases List.mem_cons.1 hw' with rfl | hw'
      · exact absurd hzero' hzero
      · have := hlt ⟨w', hw', hzero'⟩
        omega

/-- The header that `WriteHeader` writes. -/
def headerBytes (doctSize memidxSize : ℕ) (checksum : UInt32) : List UInt8 :=
  beBytes 4 MAGIC_NUMBER ++ beBytes 4 checksum.toNat ++ beBytes 4 doctSize ++ beBytes 4 memidxSize

theorem headerBytes_length (doctSize memidxSize : ℕ) (checksum : UInt32) :
    (headerBytes doctSize memidxSize checksum).length = HEADER_SIZE := by
  simp [headerBytes, HEADER_SIZE]

theorem writeHeader_wrote {doctSize memidxSize : ℕ} (d : Disk)
    (hsize : HEADER_SIZE + doctSize + memidxSize < 2 ^ 32)
    (hlen : d.file.len = HEADER_SIZE + doctSize + memidxSize) :
    Completes (writeHeader doctSize memidxSize) d fun n d' => n = HEADER_SIZE ∧
      d'.writes = d.writes + {(0, HEADER_SIZE)} ∧ d'.file = d.file.put 0 (headerBytes doctSize memidxSize
        (crc32 (d.file.slice HEADER_SIZE (doctSize + memidxSize)))) := by
  have hholds : d.file.Holds HEADER_SIZE (d.file.slice HEADER_SIZE (doctSize + memidxSize)) :=
    ⟨by rw [File.slice_length]; omega, by rw [File.slice_length]⟩
  have hloop := checksumLoop_completes _ crcInitial
    { d with pos := HEADER_SIZE, calls := d.calls + 1 } hholds
  rw [File.slice_length] at hloop
  rw [writeHeader, u32_eq (by omega)]
  apply completes_fseek
  rw [if_neg (by decide)]
  refine hloop.bind ?_
  rintro _ d₁ ⟨rfl, hfile, -, hwrites⟩
  dsimp only at hfile hwrites ⊢
  apply completes_fseek
  rw [if_neg (by decide)]
  apply completes_fwrite
  have hhead : (beBytes 4 MAGIC_NUMBER ++ beBytes 4 (getFinalCRC ((d.file.slice HEADER_SIZE
      (doctSize + memidxSize)).foldl foldByteIntoCRC crcInitial)).toNat ++
        beBytes 4 doctSize ++ beBytes 4 memidxSize) = headerBytes doctSize memidxSize
          (crc32 (d.file.slice HEADER_SIZE (doctSize + memidxSize))) := rfl
  rw [hhead, headerBytes_length, if_neg (by decide)]
  refine Completes.bind (P := fun b d' => b = true ∧ d'.file = d₁.file.put 0 _ ∧
    d'.writes = d₁.writes + {(0, HEADER_SIZE)}) ⟨true, _, rfl, rfl, rfl, rfl⟩ ?_
  rintro _ d₂ ⟨rfl, hfile₂, hwrites₂⟩
  apply completes_verify rfl
  exact completes_pure ⟨rfl, by rw [hwrites₂, hwrites], by rw [hfile₂, hfile]⟩

/-- The reader accepts a file with the header that `WriteHeader` puts in front of it. -/
theorem validFile_put {f : File} {doctSize memidxSize : ℕ}
    (hsize : HEADER_SIZE + doctSize + memidxSize < 2 ^ 32)
    (hlen : f.len = HEADER_SIZE + doctSize + memidxSize) :
    ValidFile (f.put 0 (headerBytes doctSize memidxSize
      (crc32 (f.slice HEADER_SIZE (doctSize + memidxSize))))) := by
  generalize hcrc : crc32 (f.slice HEADER_SIZE (doctSize + memidxSize)) = crc
  have hhead := headerBytes_length doctSize memidxSize crc
  have hne : headerBytes doctSize memidxSize crc ≠ [] := by
    intro hnil
    rw [hnil] at hhead
    cases hhead
  have hlen' : (f.put 0 (headerBytes doctSize memidxSize crc)).len =
      HEADER_SIZE + doctSize + memidxSize := by
    simp only [File.put, if_neg hne, hhead, hlen]
    omega
  have hslice := (File.holds_put (f := f) (p := 0) (.inr hne)).slice_eq hhead
  have hindex := field32_head (a := memidxSize) (by omega) []
  rw [List.append_nil] at hindex
  have hfields : fileHeader (f.put 0 (headerBytes doctSize memidxSize crc)) =
      ⟨MAGIC_NUMBER, crc.toNat, doctSize, memidxSize⟩ := by
    rw [fileHeader, hslice, headerBytes, field32_drop (i := 12) (by simp), hindex, List.append_assoc,
      field32_drop (i := 8) (by simp), field32_head (by omega), List.append_assoc,
      field32_drop (i := 4) (beBytes_length 4 _), field32_head (UInt32.toNat_lt _),
      field32_head (by decide)]
  have hbody : bodyLength (f.put 0 (headerBytes doctSize memidxSize crc)) = doctSize + memidxSize := by
    rw [bodyLength, hlen']
    omega
  have hchecked : checkedBytes (doctSize + memidxSize) = doctSize + memidxSize := by
    rw [checkedBytes, if_neg (by omega)]
  have hkept : (f.put 0 (headerBytes doctSize memidxSize crc)).slice HEADER_SIZE
      (doctSize + memidxSize) = f.slice HEADER_SIZE (doctSize + memidxSize) := by
    apply File.slice_congr
    intro x hx _
    exact if_neg (by rw [hhead]; omega)
  constructor
  · rw [hlen']
    omega
  · rw [hfields]
  · rw [hlen', hfields]
  · rw [hfields, hbody, hchecked, hkept, hcrc]

/-- The file has no holes and no byte written twice, is as long as `WriteIndex` says, and the
reader accepts it. -/
structure ExactFile (size : ℕ) (d : Disk) : Prop where
  tiles : Tiles d.writes 0 size
  len : d.file.len = size
  accepted : Accepts d.file

/-- The two tables, with what they write. -/
theorem writeTables_parts {mi : MemIndex} {dt : DocTable}
    (hok : ∀ e ∈ mi.entries, NonemptyPositions e) (hsize : indexSize mi dt < 2 ^ 32) (d : Disk) :
    Completes (writeDocTable dt HEADER_SIZE) d (fun dtres d₁ => dtres ≤ tableSize nameSize dt ∧
      ∃ docLog positions elements, Wrote d docLog d₁ ∧
        TableParts ElementWrite.ExactOnce dt HEADER_SIZE dtres docLog positions elements) ∧
    ∀ dtres ≤ tableSize nameSize dt, ∀ d₁, Completes (writeMemIndex mi (u32 (HEADER_SIZE + dtres))) d₁
      fun mires d₂ => mires ≤ tableSize wordSize mi.toTable ∧
        ∃ log positions elements, Wrote d₁ log d₂ ∧
          TableParts WordWrite mi.toTable (HEADER_SIZE + dtres) mires log positions elements := by
  unfold indexSize at hsize
  constructor
  · exact writeHashTable_parts writeDocidDocnameFn_reports dt (fun _ _ => trivial) (by omega) d
  · intro dtres hdtres d₁
    rw [u32_eq (by omega)]
    exact writeHashTable_parts writeWordDocSetFn_reports mi.toTable hok (by omega) d₁

theorem checksumLoop_writes (left : ℕ) (crc : UInt32) (d : Disk) :
    Completes (checksumLoop left crc) d fun _ d' => d'.writes = d.writes := by
  induction left generalizing crc d with
  | zero => exact completes_pure rfl
  | succ left ih =>
    rw [checksumLoop]
    refine Completes.bind (P := fun _ d' => d'.writes = d.writes) ⟨_, _, rfl, rfl⟩ ?_
    intro bytes d₁ hwrites
    split
    · exact (ih _ d₁).mono fun _ _ h => h.trans hwrites
    · exact completes_pure hwrites

/-- The header accounts for no more than it writes. -/
theorem writeHeader_total (doctSize memidxSize : ℕ) (d : Disk) :
    Completes (writeHeader doctSize memidxSize) d fun n d' =>
      total d.writes + n ≤ total d'.writes := by
  rw [writeHeader]
  apply completes_fseek
  rw [if_neg (by decide)]
  refine (checksumLoop_writes _ _ _).bind ?_
  rintro crc d₁ hwrites
  dsimp only at hwrites
  cases crc with
  | none => exact completes_pure (by rw [hwrites]; rfl)
  | some crc =>
    apply completes_fseek
    rw [if_neg (by decide)]
    apply completes_fwrite_at
    intro d₂ _ hwrote
    have hhead := headerBytes_length doctSize memidxSize (getFinalCRC crc)
    unfold headerBytes at hhead
    rw [hhead] at hwrote ⊢
    rw [if_neg (by decide)]
    refine Completes.bind (P := fun b d' => b = true ∧ d'.writes = d₂.writes) ⟨_, _, rfl, rfl, rfl⟩ ?_
    rintro _ d₃ ⟨rfl, hwrites₃⟩
    apply completes_verify rfl
    refine completes_pure ?_
    rw [hwrites₃, hwrote.writes, hwrites, total_add, total_singleton]

section Index

variable {mi : MemIndex} {dt : DocTable}

/-- `fopen` leaves an empty file. -/
theorem completes_create (d : Disk) : Completes create d fun b d' =>
    b = true ∧ d'.file = File.empty ∧ d'.writes = 0 :=
  ⟨true, _, rfl, rfl, rfl, rfl⟩

theorem writeIndex_exactFile (hok : ∀ e ∈ mi.entries, NonemptyPositions e)
    (hsize : indexSize mi dt < 2 ^ 32) (hwords : ∀ e ∈ mi.entries, u16 (strlen e.value.word) ≠ 0)
    (d : Disk) : Completes (writeIndex mi dt) d ExactFile := by
  have hsize' := hsize
  unfold indexSize at hsize'
  rw [writeIndex]
  refine (completes_create d).bind ?_
  rintro _ d₀ ⟨rfl, hempty, hnone⟩
  rw [if_pos rfl]
  obtain ⟨hdoc, hmem⟩ := writeTables_parts hok hsize d₀
  refine hdoc.bind ?_
  rintro dtres d₁ ⟨hdtres, docLog, docPositions, names, hwrote₁, hdocParts⟩
  have hdpos := hdocParts.size_pos
  rw [if_neg (by omega)]
  refine (hmem dtres hdtres d₁).bind ?_
  rintro mires d₂ ⟨hmires, log, positions, words, hwrote₂, hparts⟩
  have hmpos := hparts.size_pos
  rw [if_neg (by omega)]
  have honce : ∀ w ∈ words, w.ExactOnce := by
    intro w hw
    have hentry : w.entry ∈ mi.entries := hparts.entries ▸ List.mem_map_of_mem hw
    have hwrite := hparts.related w hw
    rwa [WordWrite, if_neg (hwords _ hentry)] at hwrite
  have hbody : Tiles (docLog + log) HEADER_SIZE (HEADER_SIZE + dtres + mires) :=
    (hdocParts.tiles_log hdocParts.related).add (hparts.tiles_log honce) (Nat.le_add_right _ _)
      (Nat.le_add_right _ _)
  have hwrote := hwrote₁.trans hwrote₂
  have hlen : d₂.file.len = HEADER_SIZE + dtres + mires := by
    rw [hwrote.len, hempty, hbody.fills.reach_eq (by omega)]
    exact Nat.zero_max _
  refine (writeHeader_wrote d₂ (by omega) hlen).bind ?_
  rintro _ d₃ ⟨rfl, hwrites, hfile⟩
  rw [if_neg (by decide), u32_eq (n := dtres + mires) (by omega), u32_eq (by omega)]
  have htotal : dtres + mires + HEADER_SIZE = HEADER_SIZE + dtres + mires := by omega
  have hall : Tiles d₃.writes 0 (HEADER_SIZE + dtres + mires) := by
    have hheader := tiles_singleton 0 HEADER_SIZE
    rw [Nat.zero_add] at hheader
    rw [hwrites, hwrote.writes, hnone, zero_add, add_comm]
    exact hheader.add hbody (Nat.zero_le _) (by omega)
  rw [htotal]
  refine completes_pure ⟨hall, ?_, ?_⟩
  · rw [hfile]
    simp only [File.put, headerBytes_length, hlen]
    split_ifs
    · rfl
    · omega
  · rw [accepts_iff, hfile]
    exact validFile_put (by omega) hlen

/-- With a word whose length is 0 in 16 bits more is written than the sizes account for. -/
theorem not_exactFile_of_zero (hok : ∀ e ∈ mi.entries, NonemptyPositions e)
    (hsize : indexSize mi dt < 2 ^ 32) {e : HTKeyValue WordDocSet} (he : e ∈ mi.entries)
    (hzero : u16 (strlen e.value.word) = 0) (d : Disk) :
    ¬ Completes (writeIndex mi dt) d ExactFile := by
  intro hrun
  rw [writeIndex] at hrun
  obtain ⟨_, d₀, ⟨rfl, -, hnone⟩, hrun⟩ := (completes_create d).of_bind hrun
  rw [if_pos rfl] at hrun
  obtain ⟨hdoc, hmem⟩ := writeTables_parts hok hsize d₀
  obtain ⟨dtres, d₁, ⟨hdtres, docLog, docPositions, names, hwrote₁, hdocParts⟩, hrun⟩ := hdoc.of_bind hrun
  have hdpos := hdocParts.size_pos
  rw [if_neg (by omega)] at hrun
  obtain ⟨mires, d₂, ⟨hmires, log, positions, words, hwrote₂, hparts⟩, hrun⟩ :=
    (hmem dtres hdtres d₁).of_bind hrun
  have hmpos := hparts.size_pos
  rw [if_neg (by omega)] at hrun
  obtain ⟨headerres, d₃, hheader, hrun⟩ := (writeHeader_total dtres mires d₂).of_bind hrun
  have hmore : dtres + mires < total d₂.writes := by
    have hdocTotal := (hdocParts.tiles_log hdocParts.related).total_eq (Nat.le_add_right _ _)
    have hsame := hparts.tiles.total_eq (Nat.le_add_right _ _)
    obtain ⟨w, hw, hentry⟩ := List.mem_map.1 (hparts.entries ▸ he)
    have hwords := (total_elementLogs hparts.related).2 ⟨w, hw, by rwa [hentry]⟩
    rw [(hwrote₁.trans hwrote₂).writes, hnone, zero_add, total_add, hparts.log, total_add]
    rw [total_add] at hsame
    omega
  by_cases hfailed : headerres = 0
  · rw [if_pos hfailed] at hrun
    obtain ⟨n, d₄, hpure, hexact⟩ := hrun
    cases hpure
    have := hexact.tiles.total_eq le_rfl
    change total d₃.writes = 0 at this
    omega
  · rw [if_neg hfailed] at hrun
    obtain ⟨n, d₄, hpure, hexact⟩ := hrun
    cases hpure
    have htotal := hexact.tiles.total_eq (Nat.zero_le _)
    have hle : u32 (u32 (dtres + mires) + headerres) ≤ dtres + mires + headerres :=
      (Nat.mod_le _ _).trans (Nat.add_le_add_right (Nat.mod_le _ _) _)
    omega

end Index

/-- A table is laid out exactly whatever writes its elements exactly; an index file is exact if and
only if no word of the index has a length that is a multiple of 2^16. -/
theorem writeIndex_exact_iff (mi : MemIndex) (dt : DocTable)
    (hok : ∀ e ∈ mi.entries, NonemptyPositions e) (hsize : indexSize mi dt < 2 ^ 32) (d : Disk) :
    (∀ (V : Type) (fn : WriteElementFn V) (bound : HTKeyValue V → ℕ) (ok : HTKeyValue V → Prop)
      (t : Table V) (off : ℕ) (d : Disk), Reports fn bound ElementWrite.Exact ok →
      (∀ kv ∈ t.entries, ok kv) → off + tableSize bound t < 2 ^ 32 →
      Completes (writeHashTable t off fn) d fun size d' => ∃ log positions elements,
        Wrote d log d' ∧ TableParts ElementWrite.Exact t off size log positions elements ∧
          Fills log off (off + size)) ∧
    (Completes (writeIndex mi dt) d ExactFile ↔ ∀ e ∈ mi.entries, strlen e.value.word % 2 ^ 16 ≠ 0) := by
  constructor
  · intro V fn bound ok t off d hfn hok hsize
    refine (writeHashTable_parts hfn t hok hsize d).mono ?_
    rintro size d' ⟨-, log, positions, elements, hwrote, hparts⟩
    exact ⟨log, positions, elements, hwrote, hparts, hparts.fills hparts.related⟩
  · constructor
    · intro hrun e he hzero
      exact not_exactFile_of_zero hok hsize he hzero d hrun
    · intro hwords
      exact writeIndex_exactFile hok hsize hwords d

theorem twoPositions_ok : ∀ e ∈ twoPositions.entries, PositionsOk e := by
  unfold PositionsOk
  decide

theorem writeIndex_exact_oneWord :
    Completes (writeIndex oneWord oneName) ⟨.empty, 0, false, 0, 0⟩ ExactFile := by
  refine (writeIndex_exact_iff oneWord oneName ?_ (by decide) _).2.2 ?_
  · intro e he
    cases List.mem_singleton.1 he
    exact twoPositions_ok
  · intro e he
    cases List.mem_singleton.1 he
    decide

/-- A word of `n` letters. -/
def letters (n : ℕ) : CString where
  bytes := List.replicate n 97
  nonul := by
    intro h
    cases List.eq_of_mem_replicate h

@[simp] theorem strlen_letters (n : ℕ) : strlen (letters n) = n := List.length_replicate

/-- An index with one word, of `n` letters. -/
def longWord (n : ℕ) : MemIndex where
  buckets := [[⟨fnvHash64 (letters n).bytes (strlen (letters n) % 2 ^ 32), ⟨letters n, twoPositions⟩⟩]]
  nonempty := by simp
  placed := by
    intro i chain hi e _
    obtain ⟨hlt, -⟩ := List.getElem?_eq_some_iff.1 hi
    have hone : i = 0 := Nat.lt_one_iff.1 hlt
    rw [hone]
    exact Nat.mod_one _
  nodup := by simp
  hashed := by
    intro e he
    cases List.mem_singleton.1 he
    rfl

theorem longWord_entries {n : ℕ} {e : HTKeyValue WordDocSet} (he : e ∈ (longWord n).entries) :
    e.value = ⟨letters n, twoPositions⟩ := by
  cases List.mem_singleton.1 he
  rfl

theorem longWord_ok (n : ℕ) : ∀ e ∈ (longWord n).entries, NonemptyPositions e := by
  intro e he
  rw [NonemptyPositions, longWord_entries he]
  exact twoPositions_ok

theorem longWord_size (n : ℕ) : indexSize (longWord n) oneName < 2 ^ 32 := by
  have hword : tableSize wordSize (longWord n).toTable =
      12 + (4 + (6 + u16 n + tableSize positionsSize twoPositions)) := by
    simp [tableSize, Table.entries, longWord, wordSize]
  have hdocs : tableSize positionsSize twoPositions = 44 := by decide
  have hnames : tableSize nameSize oneName = 27 := by decide
  have hlen : u16 n < 2 ^ 16 := Nat.mod_lt _ (Nat.two_pow_pos 16)
  rw [indexSize, hword, hdocs, hnames, HEADER_SIZE]
  omega

/-- The file of an index with a word of 65536 letters is not exact. -/
theorem not_writeIndex_exact_longWord :
    (∀ e ∈ (longWord (2 ^ 16)).entries, NonemptyPositions e) ∧
    indexSize (longWord (2 ^ 16)) oneName < 2 ^ 32 ∧
    ¬ Completes (writeIndex (longWord (2 ^ 16)) oneName) ⟨.empty, 0, false, 0, 0⟩ ExactFile := by
  have hzero : u16 (strlen (letters (2 ^ 16))) = 0 := by
    rw [strlen_letters]
    rfl
  refine ⟨longWord_ok _, longWord_size _, ?_⟩
  exact not_exactFile_of_zero (longWord_ok _) (longWord_size _) (List.mem_singleton_self _) hzero _

end Courses.SearchEngine
