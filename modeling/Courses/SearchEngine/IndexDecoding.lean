import Courses.SearchEngine.IndexEncoding

/-!
# Looking keys up in an encoded table

A table reader finds its way through a file by the offsets in it alone. Over a file
that holds the encoding of a table, the positions it finds for a key are those of the
elements in the key's bucket, so each lookup is a search of that bucket.
-/
namespace Courses.SearchEngine

open Courses.Lib Courses.Lib.DiskM

/-! ## Reading a fixed file -/

section Reads

variable {α β : Type} {f : File} {x : DiskM α} {g : α → DiskM β} {a : α} {b : β} {p n : ℕ}
  {bs : List UInt8}

/-- On a disk with the file `f`, standing at `p`, `x` reads the value `a`. -/
def ReadsFrom (f : File) (p : ℕ) (x : DiskM α) (a : α) : Prop :=
  ∀ d : Disk, d.file = f → d.pos = p → Completes x d fun r d' => r = a ∧ d'.file = f

/-- On a disk with the file `f`, wherever it stands, `x` reads the value `a`. -/
def Reads (f : File) (x : DiskM α) (a : α) : Prop :=
  ∀ d : Disk, d.file = f → Completes x d fun r d' => r = a ∧ d'.file = f

theorem Reads.from (h : Reads f x a) (p : ℕ) : ReadsFrom f p x a := fun d hd _ => h d hd

theorem reads_pure (a : α) : Reads f (pure a) a := fun _ hd => completes_pure ⟨rfl, hd⟩

theorem Reads.bind (hx : Reads f x a) (hg : Reads f (g a) b) : Reads f (x >>= g) b := by
  intro d hd
  refine (hx d hd).bind ?_
  rintro _ d' ⟨rfl, hd'⟩
  exact hg d' hd'

theorem ReadsFrom.bind (hx : ReadsFrom f p x a) (hg : Reads f (g a) b) :
    ReadsFrom f p (x >>= g) b := by
  intro d hd hp
  refine (hx d hd hp).bind ?_
  rintro _ d' ⟨rfl, hd'⟩
  exact hg d' hd'

theorem reads_seekTo {g : Unit → DiskM β} (h : ReadsFrom f p (g ()) b) :
    Reads f (seekTo p >>= g) b := by
  intro d hd
  rw [seekTo, bind_assoc]
  apply completes_fseek
  apply completes_verify rfl
  exact h _ hd rfl

theorem readsFrom_readExactly {g : List UInt8 → DiskM β} (hbs : f.Holds p bs) (hn : bs.length = n)
    (h : ReadsFrom f (p + n) (g bs) b) : ReadsFrom f p (readExactly n >>= g) b := by
  intro d hd hp
  rw [readExactly, bind_assoc]
  have hholds : d.file.Holds d.pos bs := by rwa [hd, hp]
  apply completes_fread hholds hn
  rw [bind_assoc]
  apply completes_verify (by simpa using hn)
  exact h _ hd (by rw [← hp])

/-- The two steps with which every record is read. -/
theorem reads_record {g : List UInt8 → DiskM β} (hbs : f.Holds p bs) (hn : bs.length = n)
    (h : ReadsFrom f (p + n) (g bs) b) :
    Reads f (seekTo p >>= fun _ => readExactly n >>= g) b :=
  reads_seekTo (readsFrom_readExactly hbs hn h)

end Reads

/-! ## Fields -/

theorem field32_head {a : ℕ} (ha : a < 2 ^ 32) (bs : List UInt8) :
    field32 (beBytes 4 a ++ bs) 0 = a := by
  have htake : ((beBytes 4 a ++ bs).drop 0).take 4 = beBytes 4 a := by
    rw [List.drop_zero, List.take_left' (beBytes_length 4 a)]
  rw [field32, htake]
  exact ofBe_beBytes_of_lt (ha.trans_eq (by norm_num))

theorem field32_drop {xs : List UInt8} {i : ℕ} (hi : xs.length = i) (bs : List UInt8) :
    field32 (xs ++ bs) i = field32 bs 0 := by
  rw [field32, field32, List.drop_left' hi, List.drop_zero]

theorem fieldDocID_head (key : HTKey) (bs : List UInt8) :
    fieldDocID (beBytes 8 key.toNat ++ bs) = key := by
  rw [fieldDocID, List.take_left' (beBytes_length 8 _),
    ofBe_beBytes_of_lt (key.toNat_lt.trans_eq (by norm_num))]
  exact UInt64.ofNat_toNat

/-! ## Buckets of an encoded table -/

section Table

variable {V : Type} {enc : Encoder V} {f : File} {off : ℕ} {chain : List (HTKeyValue V)}
  {es : List ℕ} {t : Table V} {key : HTKey}

/-- The record at `recOff` leads to the elements of the chain, in order. -/
structure BucketAt (enc : Encoder V) (f : File) (recOff : ℕ) (chain : List (HTKeyValue V))
    (q : ℕ) (es : List ℕ) : Prop where
  record : f.Holds recOff (beBytes 4 chain.length ++ beBytes 4 q)
  positions : f.Holds q (positionBytes es)
  elements : List.Forall₂ (fun e kv => f.Holds e (enc e kv)) es chain

theorem holds_elementBytes {next : ℕ} (h : f.Holds next (elementBytes enc next chain)) :
    List.Forall₂ (fun e kv => f.Holds e (enc e kv)) (elementOffsets enc next chain) chain := by
  induction chain generalizing next with
  | nil => exact .nil
  | cons kv chain ih =>
    rw [elementBytes, File.holds_append] at h
    exact .cons h.1 (ih h.2)

theorem holds_buckets (chains : List (List (HTKeyValue V))) {recOff next : ℕ}
    (hrec : f.Holds recOff (bucketRecords enc next chains))
    (hbytes : f.Holds next (bucketBytes enc next chains)) {i : ℕ}
    (hi : chains[i]? = some chain) : ∃ q es, BucketAt enc f (recOff + 8 * i) chain q es := by
  induction chains generalizing recOff next i with
  | nil => cases hi
  | cons c chains ih =>
    rw [bucketRecords, File.holds_append] at hrec
    rw [bucketBytes, File.holds_append] at hbytes
    cases i with
    | zero =>
      cases hi
      have hbucket := hbytes.1
      rw [encodeBucket, File.holds_append, positionBytes_length, elementOffsets_length] at hbucket
      exact ⟨next, _, hrec.1, hbucket.1, holds_elementBytes hbucket.2⟩
    | succ i =>
      have hlen : (beBytes 4 c.length ++ beBytes 4 next).length = 8 := by simp
      rw [hlen] at hrec
      have haddr : recOff + 8 * (i + 1) = recOff + 8 + 8 * i := by omega
      rw [haddr]
      exact ih hrec.2 hbytes.2 hi

/-- The file holds the table at `off`, and is short enough for 32-bit offsets. -/
structure TableAt (enc : Encoder V) (f : File) (off : ℕ) (t : Table V) : Prop where
  holds : f.Holds off (encodeTable enc off t.buckets)
  short : f.len < 2 ^ 32

namespace Table

theorem length_pos (t : Table V) : 0 < t.buckets.length := List.length_pos_iff.mpr t.nonempty

theorem index_lt (t : Table V) (key : HTKey) : key.toNat % t.buckets.length < t.buckets.length :=
  Nat.mod_lt _ t.length_pos

/-- The chain a key belongs to. -/
def bucket (t : Table V) (key : HTKey) : List (HTKeyValue V) :=
  t.buckets.get ⟨key.toNat % t.buckets.length, t.index_lt key⟩

theorem getElem?_bucket (t : Table V) (key : HTKey) :
    t.buckets[key.toNat % t.buckets.length]? = some (t.bucket key) :=
  List.getElem?_eq_getElem (t.index_lt key)

/-- An entry that can only be under `key` is found in the chain of `key`. -/
theorem find?_entries (t : Table V) {q : HTKeyValue V → Bool}
    (hq : ∀ e ∈ t.entries, q e = true → e.key = key) :
    t.entries.find? q = (t.bucket key).find? q := by
  obtain ⟨hlt, hget⟩ := List.getElem?_eq_some_iff.mp (t.getElem?_bucket key)
  have hsplit : t.buckets = t.buckets.take (key.toNat % t.buckets.length) ++
      t.bucket key :: t.buckets.drop (key.toNat % t.buckets.length + 1) := by
    rw [← hget, List.cons_getElem_drop_succ, List.take_append_drop]
  -- an entry of another chain is not under the key
  have hother : ∀ i c, t.buckets[i]? = some c → i ≠ key.toNat % t.buckets.length →
      c.find? q = none := by
    intro i c hc hne
    rw [List.find?_eq_none]
    intro e he hqe
    have hmem : e ∈ t.entries := List.mem_flatten.mpr ⟨c, List.mem_of_getElem? hc, he⟩
    exact hne (hq e hmem hqe ▸ (t.placed i c hc e he).symm)
  have hnone : ∀ cs : List (List (HTKeyValue V)), (∀ c ∈ cs, c.find? q = none) →
      cs.flatten.find? q = none := by
    intro cs hcs
    rw [List.find?_flatten, List.findSome?_eq_none_iff]
    exact hcs
  rw [entries, hsplit, List.flatten_append, List.flatten_cons, List.find?_append,
    List.find?_append, hnone, hnone, Option.none_or, Option.or_none]
  · intro c hc
    obtain ⟨i, hi⟩ := List.mem_iff_getElem?.mp hc
    rw [List.getElem?_drop] at hi
    exact hother _ c hi (by omega)
  · intro c hc
    obtain ⟨i, hi⟩ := List.mem_iff_getElem?.mp hc
    have hlt' : i < key.toNat % t.buckets.length := by
      have := (List.getElem?_eq_some_iff.mp hi).1
      rw [List.length_take] at this
      omega
    rw [List.getElem?_take_of_lt hlt'] at hi
    exact hother i c hi (by omega)

end Table

namespace TableAt

theorem length_lt (h : TableAt enc f off t) : off + 4 + 8 * t.buckets.length < 2 ^ 32 := by
  have hlen := h.holds.1
  have := h.short
  rw [encodeTable_length] at hlen
  omega

theorem bucketAt (h : TableAt enc f off t) {i : ℕ} (hi : t.buckets[i]? = some chain) :
    ∃ q es, BucketAt enc f (off + 4 + 8 * i) chain q es := by
  have hholds := h.holds
  rw [encodeTable, List.append_assoc, File.holds_append, beBytes_length, File.holds_append,
    bucketRecords_length] at hholds
  obtain ⟨-, hrec, hbytes⟩ := hholds
  exact holds_buckets t.buckets hrec hbytes hi

/-- The constructor of a reader. -/
theorem reads_hashTableReader (h : TableAt enc f off t) :
    Reads f (hashTableReader off) ⟨off, t.buckets.length⟩ := by
  have hholds := h.holds
  have hlt := h.length_lt
  rw [encodeTable, List.append_assoc, File.holds_append] at hholds
  rw [hashTableReader]
  apply reads_record hholds.1 (by simp)
  have hfield := field32_head (a := t.buckets.length) (by omega) []
  rw [List.append_nil] at hfield
  rw [hfield]
  exact (reads_pure _).from _

end TableAt

namespace BucketAt

variable {recOff q : ℕ}

theorem length_eq (h : BucketAt enc f recOff chain q es) : es.length = chain.length :=
  h.elements.length_eq

theorem bounds (h : BucketAt enc f recOff chain q es) (hf : f.len < 2 ^ 32) :
    chain.length < 2 ^ 32 ∧ q < 2 ^ 32 := by
  have hlen := h.positions.1
  rw [positionBytes_length, h.length_eq] at hlen
  omega

theorem offset_lt (h : BucketAt enc f recOff chain q es) (hf : f.len < 2 ^ 32) {e : ℕ}
    (he : e ∈ es) : e < 2 ^ 32 := by
  obtain ⟨i, hi, rfl⟩ := List.getElem_of_mem he
  have hkv := (List.forall₂_iff_get.mp h.elements).2 i hi (h.length_eq ▸ hi)
  exact (Nat.le_add_right _ _).trans_lt (hkv.1.trans_lt hf)

end BucketAt

theorem reads_elementPositions (es : List ℕ) {p : ℕ} (h : f.Holds p (positionBytes es))
    (hlt : ∀ e ∈ es, e < 2 ^ 32) : ReadsFrom f p (readElementPositions es.length) es := by
  induction es generalizing p with
  | nil => exact (reads_pure _).from _
  | cons e es ih =>
    rw [positionBytes, List.flatMap_cons, File.holds_append] at h
    rw [List.length_cons, readElementPositions]
    apply readsFrom_readExactly h.1 (by simp)
    have hfield := field32_head (hlt e List.mem_cons_self) []
    rw [List.append_nil] at hfield
    rw [hfield]
    have htail := h.2
    rw [beBytes_length] at htail
    exact (ih htail fun e' he' => hlt e' (List.mem_cons_of_mem _ he')).bind (reads_pure _)

/-- The positions found for a key are those of the elements of its bucket. -/
theorem TableAt.reads_lookupElementPositions (h : TableAt enc f off t) (key : HTKey) :
    ∃ es, Reads f (lookupElementPositions ⟨off, t.buckets.length⟩ key) es ∧
      List.Forall₂ (fun e kv => f.Holds e (enc e kv)) es (t.bucket key) := by
  obtain ⟨q, es, hb⟩ := h.bucketAt (t.getElem?_bucket key)
  have hpos := t.length_pos
  have hlt := h.length_lt
  have hidx := t.index_lt key
  obtain ⟨hchain, hq⟩ := hb.bounds h.short
  refine ⟨es, ?_, hb.elements⟩
  rw [lookupElementPositions, if_neg (by dsimp only; omega)]
  dsimp only
  rw [u32_eq (by omega)]
  apply reads_record hb.record (by simp)
  rw [field32_head hchain, field32_drop (beBytes_length 4 _)]
  have hfield := field32_head hq []
  rw [List.append_nil] at hfield
  rw [hfield]
  by_cases hzero : (t.bucket key).length = 0
  · have hes : es = [] := List.length_eq_zero_iff.mp (hb.length_eq.trans hzero)
    rw [if_pos hzero, hes]
    exact (reads_pure _).from _
  · rw [if_neg hzero, ← hb.length_eq]
    apply Reads.from
    apply reads_seekTo
    exact reads_elementPositions es hb.positions fun e he => hb.offset_lt h.short he

end Table
end Courses.SearchEngine
