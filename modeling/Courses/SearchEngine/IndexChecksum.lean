import Courses.Lib.Crc
import Courses.SearchEngine.FileIndexWriter
import Courses.SearchEngine.IndexRoundTrip

/-!
# The checksum objects

`CRC32` of `hw3`. The table is a static member that the first constructor fills, an entry
by reflecting its index, shifting the other way and reflecting back. The object folds
bytes until its final value is taken once. What it computes is the reflected CRC-32, bit
by bit: `Lib/Crc` has the rule that lets eight bits enter the register together.
-/
namespace Courses.SearchEngine

open Courses.Lib

/-! ## The code of the table -/

/-- `POLYNOMIAL` with its bits in reverse order. -/
def reflectedPolynomial : BitVec 32 := 0xEDB88320#32

/-- The bits of a byte in the order the CRC takes them. -/
def byteBits (b : UInt8) : List Bool := (List.range 8).map b.toNat.testBit

theorem crcTable_ofNat : ∀ c < 256, (crcTable (UInt32.ofNat c)).toBitVec =
    (Crc.shift reflectedPolynomial)^[8] (BitVec.ofNat 32 c) := by
  decide +kernel

theorem crcTable_toBitVec (c : UInt32) (h : c.toNat < 256) :
    (crcTable c).toBitVec = (Crc.shift reflectedPolynomial)^[8] c.toBitVec := by
  have hc := crcTable_ofNat c.toNat h
  rwa [UInt32.ofNat_toNat, ← UInt32.toNat_toBitVec, BitVec.ofNat_toNat, BitVec.setWidth_eq] at hc

theorem ofBits_byteBits (b : UInt8) : Crc.ofBits 32 (byteBits b) = b.toUInt32.toBitVec := by
  apply BitVec.eq_of_getLsbD_eq
  intro i hi
  rw [Crc.getLsbD_ofBits, decide_eq_true hi, Bool.true_and, byteBits, List.getElem?_map,
    BitVec.getLsbD, UInt32.toNat_toBitVec, UInt8.toNat_toUInt32]
  by_cases h8 : i < 8
  · simp [List.getElem?_range h8]
  · rw [List.getElem?_eq_none (by simpa using h8)]
    exact (Nat.testBit_lt_two_pow (b.toNat_lt.trans_le (Nat.pow_le_pow_right (by omega)
      (Nat.le_of_not_lt h8)))).symm

/-- The index into the table, and what is left of the register. -/
theorem xor_byte_split (s : UInt32) (b : UInt8) :
    s.toBitVec ^^^ b.toUInt32.toBitVec =
      ((s &&& 0xFF) ^^^ b.toUInt32).toBitVec ^^^ ((s.toBitVec >>> 8) <<< 8) := by
  have hmask : s.toBitVec = (s &&& 0xFF).toBitVec ^^^ ((s.toBitVec >>> 8) <<< 8) := by
    apply BitVec.eq_of_getLsbD_eq
    intro i hi
    have h255 : (255#32).getLsbD i = decide (i < 8) := by
      rw [BitVec.getLsbD_ofNat, show (255 : ℕ) = 2 ^ 8 - 1 by rfl, Nat.testBit_two_pow_sub_one]
      simp [hi]
    have hmask : (s &&& 0xFF).toBitVec.getLsbD i = (s.toBitVec.getLsbD i && decide (i < 8)) := by
      rw [UInt32.toBitVec_and, BitVec.getLsbD_and, ← h255]
      rfl
    rw [BitVec.getLsbD_xor, hmask, BitVec.getLsbD_shiftLeft, BitVec.getLsbD_ushiftRight]
    by_cases h8 : i < 8
    · simp [h8]
    · simp [h8, hi, show 8 + (i - 8) = i by omega]
  rw [UInt32.toBitVec_xor]
  conv_lhs => rw [hmask]
  rw [BitVec.xor_assoc, BitVec.xor_comm (s.toBitVec >>> 8 <<< 8), ← BitVec.xor_assoc]

theorem index_lt (crcState : UInt32) (nextbyte : UInt8) :
    ((crcState &&& 0xFF) ^^^ nextbyte.toUInt32).toNat < 256 := by
  have hs : (crcState &&& 0xFF).toNat < 2 ^ 8 := by
    rw [UInt32.toNat_and]
    exact Nat.and_lt_two_pow _ (by decide)
  have hb : nextbyte.toUInt32.toNat < 2 ^ 8 := by
    rw [UInt8.toNat_toUInt32]
    exact nextbyte.toNat_lt
  rw [UInt32.toNat_xor]
  exact Nat.xor_lt_two_pow hs hb

/-- Folding a byte through the table is folding its bits. -/
theorem foldByteIntoCRC_toBitVec (s : UInt32) (b : UInt8) :
    (foldByteIntoCRC s b).toBitVec =
      (byteBits b).foldl (Crc.foldBit reflectedPolynomial) s.toBitVec := by
  rw [Crc.foldl_foldBit _ _ _ (by simp [byteBits]), ofBits_byteBits,
    xor_byte_split]
  have hlen : (byteBits b).length = 8 := by simp [byteBits]
  rw [hlen, Crc.shift_iterate_xor_shiftLeft, foldByteIntoCRC, UInt32.toBitVec_xor,
    crcTable_toBitVec _ (index_lt s b), BitVec.xor_comm]
  · rfl
  · intro i hi
    rw [BitVec.getLsbD_ushiftRight, BitVec.getLsbD_of_ge _ _ (by omega)]

theorem foldl_foldByteIntoCRC_toBitVec (bs : List UInt8) (s : UInt32) :
    (bs.foldl foldByteIntoCRC s).toBitVec =
      (bs.flatMap byteBits).foldl (Crc.foldBit reflectedPolynomial) s.toBitVec := by
  induction bs generalizing s with
  | nil => rfl
  | cons b bs ih =>
    rw [List.foldl_cons, ih, foldByteIntoCRC_toBitVec, List.flatMap_cons, List.foldl_append]

/-! ## The objects -/

/-- `table_`, as `Initialize` leaves it. -/
def initializedTable : Vector UInt32 256 := Vector.ofFn fun codes => crcTable (UInt32.ofNat codes)

/-- The static members of `CRC32`, the table zero until the first constructor. -/
structure Statics where
  table : Vector UInt32 256
  tableIsInitialized : Bool
  initialized : tableIsInitialized = true → table = initializedTable

def Statics.atStart : Statics := ⟨Vector.replicate 256 0, false, nofun⟩

structure CRC32 where
  crcState : UInt32
  finalized : Bool

namespace CRC32

/-- `CRC32::CRC32`. -/
def new (statics : Statics) : CRC32 × Statics :=
  let statics :=
    if statics.tableIsInitialized then statics else ⟨initializedTable, true, fun _ => rfl⟩
  (⟨crcInitial, false⟩, statics)

/-- `CRC32::FoldByteIntoCRC`; `none` is a failed `Verify333`. -/
def foldByteIntoCRC (statics : Statics) (crc : CRC32) (nextbyte : UInt8) : Option CRC32 :=
  if crc.finalized then
    none
  else
    let entry := statics.table.toArray.getD ((crc.crcState &&& 0xFF) ^^^ nextbyte.toUInt32).toNat 0
    some { crc with crcState := (crc.crcState >>> 8) ^^^ entry }

/-- `CRC32::GetFinalCRC`. -/
def getFinalCRC (crc : CRC32) : UInt32 × CRC32 :=
  let crc := if crc.finalized then crc else ⟨crc.crcState ^^^ 0xFFFFFFFF, true⟩
  (crc.crcState, crc)

/-- An object takes the bytes of a sequence. -/
def foldBytes (statics : Statics) (crc : CRC32) (bytes : List UInt8) : Option CRC32 :=
  bytes.foldlM (foldByteIntoCRC statics) crc

end CRC32

/-! ## The bitwise code -/

/-- A bit enters the reflected CRC-32 of a polynomial given with its high coefficient first. -/
def bitwiseStep (polynomial crc : BitVec 32) (bit : Bool) : BitVec 32 :=
  if crc.getLsbD 0 ^^ bit then (crc >>> 1) ^^^ polynomial.reverse else crc >>> 1

/-- The reflected CRC-32: each byte with its low bit first, all ones at the start and a
complement at the end. -/
def bitwiseCRC (bytes : List UInt8) : BitVec 32 :=
  ~~~((bytes.flatMap byteBits).foldl (bitwiseStep 0x04C11DB7#32) 0xFFFFFFFF#32)

/-! ## Agreement -/

/-- A bit enters at the low end before the shift, or is compared with what the shift drops. -/
theorem bitwiseStep_eq_foldBit (polynomial crc : BitVec 32) (bit : Bool) :
    bitwiseStep polynomial crc bit = Crc.foldBit polynomial.reverse crc bit := by
  have hlow : (crc ^^^ Crc.lowBit 32 bit).getLsbD 0 = (crc.getLsbD 0 ^^ bit) := by
    rw [BitVec.getLsbD_xor, Crc.getLsbD_lowBit]
    simp
  have hout : Crc.lowBit 32 bit >>> 1 = 0#32 := by
    cases bit <;> rfl
  rw [bitwiseStep, Crc.foldBit, Crc.shift, hlow, BitVec.ushiftRight_xor_distrib, hout,
    BitVec.xor_zero]
  split
  · rfl
  · exact BitVec.xor_zero.symm

theorem bitwiseStep_polynomial :
    bitwiseStep 0x04C11DB7#32 = Crc.foldBit reflectedPolynomial := by
  have hreverse : (0x04C11DB7#32).reverse = reflectedPolynomial := by decide +kernel
  funext crc bit
  rw [bitwiseStep_eq_foldBit, hreverse]

namespace CRC32

variable {statics : Statics}

/-- Every constructor leaves the table filled, whichever of them did it. -/
theorem new_table (statics : Statics) : (new statics).2.table = initializedTable := by
  unfold new
  split
  · rename_i h
    exact statics.initialized h
  · rfl

theorem getD_initializedTable {code : UInt32} (h : code.toNat < 256) :
    initializedTable.toArray.getD code.toNat 0 = crcTable code := by
  have hsize : code.toNat < initializedTable.toArray.size := by simpa using h
  rw [Array.getD_eq_getD_getElem?, Array.getElem?_eq_getElem hsize, Option.getD_some]
  simp [initializedTable]

theorem foldByteIntoCRC_eq (htable : statics.table = initializedTable) (crcState : UInt32)
    (nextbyte : UInt8) :
    foldByteIntoCRC statics ⟨crcState, false⟩ nextbyte =
      some ⟨SearchEngine.foldByteIntoCRC crcState nextbyte, false⟩ := by
  rw [foldByteIntoCRC, htable]
  simp only [getD_initializedTable (index_lt crcState nextbyte), SearchEngine.foldByteIntoCRC]
  rfl

theorem foldBytes_eq (htable : statics.table = initializedTable) (bytes : List UInt8)
    (crcState : UInt32) :
    foldBytes statics ⟨crcState, false⟩ bytes =
      some ⟨bytes.foldl SearchEngine.foldByteIntoCRC crcState, false⟩ := by
  induction bytes generalizing crcState with
  | nil => rfl
  | cons b bytes ih =>
    rw [foldBytes, List.foldlM_cons, foldByteIntoCRC_eq htable]
    exact ih _

/-- The table-driven CRC is the bitwise one: an object made at any time takes every sequence
of bytes, and its final value is the reflected CRC-32 of the sequence. -/
theorem getFinalCRC_eq_bitwiseCRC (statics : Statics) (bytes : List UInt8) :
    ∃ crc, foldBytes (new statics).2 (new statics).1 bytes = some crc ∧
      crc.getFinalCRC.1.toBitVec = bitwiseCRC bytes := by
  refine ⟨_, foldBytes_eq (new_table statics) bytes crcInitial, ?_⟩
  have hfolds := foldl_foldByteIntoCRC_toBitVec bytes crcInitial
  rw [bitwiseCRC, bitwiseStep_polynomial, getFinalCRC]
  simp only [Bool.false_eq_true, if_false]
  rw [UInt32.toBitVec_xor, hfolds]
  exact BitVec.xor_allOnes

/-- The check value of CRC-32, for the digits from 1 to 9. -/
example : bitwiseCRC [49, 50, 51, 52, 53, 54, 55, 56, 57] = 0xCBF43926#32 := by decide +kernel

end CRC32

end Courses.SearchEngine

/-!
# What the checksum of an index file detects

`FileIndexReader` folds the body of a file into a table-driven CRC, 512 bytes at a time.
The table is that of the reflected code of `0x04C11DB7`, each byte entering with its low
bit first, so a burst of at most 32 bits changes the checksum. The length of the file is
compared after a cast to 32 bits and the loop counts in 32 bits: `checkedBytes` is how
much of the body it covers in the end.
-/
namespace Courses.SearchEngine

open Courses.Lib Courses.Lib.DiskM

/-! ## What the reader accepts -/

/-- How many bytes of a body of `n` bytes the checksum loop reads. -/
def checkedBytes (n : ℕ) : ℕ := if 2 ^ 32 ≤ n ∧ 512 ∣ n then n % 2 ^ 32 else n

theorem checkedBytes_le (n : ℕ) : checkedBytes n ≤ n := by
  unfold checkedBytes
  split_ifs
  · exact Nat.mod_le _ _
  · exact le_rfl

theorem u32_checkedBytes (n : ℕ) : u32 (checkedBytes n) = u32 n := by
  unfold checkedBytes
  split_ifs
  · exact Nat.mod_mod _ _
  · rfl

theorem stopsAfter_checkedBytes (n : ℕ) : StopsAfter (checkedBytes n) (checkedBytes n = n) := by
  unfold checkedBytes
  split_ifs with h
  · exact ⟨by omega, by omega⟩
  · exact ⟨by omega, .inr rfl⟩

/-- A file under the name given to the reader. -/
def onDisk (f : File) : Disk := ⟨f, 0, true, 0, 0⟩

def Accepts (f : File) : Prop := Completes (fileIndexReader true) (onDisk f) fun _ _ => True

def Rejects (f : File) : Prop := Aborts (fileIndexReader true) (onDisk f)

/-- The header of a file, as the reader takes it. -/
def fileHeader (f : File) : IndexFileHeader :=
  let bs := f.slice 0 HEADER_SIZE
  ⟨field32 bs 0, field32 bs 4, field32 bs 8, field32 bs 12⟩

def bodyLength (f : File) : ℕ := f.len - HEADER_SIZE

/-- The checks of the constructor. -/
structure ValidFile (f : File) : Prop where
  header : HEADER_SIZE ≤ f.len
  magic : (fileHeader f).magicNumber = MAGIC_NUMBER
  size : u32 f.len = u32 (HEADER_SIZE + (fileHeader f).doctableSize + (fileHeader f).indexSize)
  checksum : (crc32 (f.slice HEADER_SIZE (checkedBytes (bodyLength f)))).toNat =
    (fileHeader f).checksum

/-- The loop reads as many bytes as `checkedBytes` says. -/
theorem validateLoop_file (f : File) (hheader : HEADER_SIZE ≤ f.len)
    (hsize : u32 f.len = u32 (HEADER_SIZE + (fileHeader f).doctableSize + (fileHeader f).indexSize))
    (d : Disk) (hd : d.file = f) (hpos : d.pos = HEADER_SIZE) :
    Completes (validateLoop (f.len + 1)
        (u32 ((fileHeader f).doctableSize + (fileHeader f).indexSize)) crcInitial) d fun r d' =>
      r = (f.slice HEADER_SIZE (checkedBytes (bodyLength f))).foldl foldByteIntoCRC crcInitial ∧
        d'.file = f := by
  have hle := checkedBytes_le (bodyLength f)
  have hbody : bodyLength f = f.len - HEADER_SIZE := rfl
  have hcount : u32 ((fileHeader f).doctableSize + (fileHeader f).indexSize) =
      u32 (f.slice HEADER_SIZE (checkedBytes (bodyLength f))).length := by
    rw [File.slice_length, u32_checkedBytes]
    rw [u32, u32] at hsize ⊢
    omega
  have hholds : d.file.Holds d.pos (f.slice HEADER_SIZE (checkedBytes (bodyLength f))) := by
    rw [hd, hpos]
    exact ⟨by rw [File.slice_length]; omega, by rw [File.slice_length]⟩
  have hstop : StopsAfter (f.slice HEADER_SIZE (checkedBytes (bodyLength f))).length
      (d.pos + (f.slice HEADER_SIZE (checkedBytes (bodyLength f))).length = d.file.len) := by
    obtain ⟨hcount, hat⟩ := stopsAfter_checkedBytes (bodyLength f)
    rw [File.slice_length, hd, hpos]
    exact ⟨hcount, hat.imp_right fun h => by omega⟩
  rw [hcount]
  refine (validateLoop_completes _ _ _ d hholds hstop ?_).mono ?_
  · rw [File.slice_length]
    omega
  · rintro r d' ⟨rfl, hfile⟩
    exact ⟨rfl, hfile.trans hd⟩

/-- The constructor checks what `ValidFile` says and nothing else. -/
theorem fileIndexReader_settles (f : File) :
    Settles (fileIndexReader true) (onDisk f) (ValidFile f) := by
  have hread (d : Disk) (hd : d.file = f) (hpos : d.pos = 0) :
      Completes (fread HEADER_SIZE) d fun bs d' => bs = f.slice 0 (min HEADER_SIZE f.len) ∧
        d'.file = f ∧ d'.pos = min HEADER_SIZE f.len := by
    refine ⟨_, _, rfl, ?_, hd, ?_⟩
    · rw [hd, hpos, Nat.sub_zero]
    · dsimp only
      rw [hd, hpos, Nat.sub_zero, Nat.zero_add]
  have hvalid : (true = true ∧ decide ((f.slice 0 (min HEADER_SIZE f.len)).length = HEADER_SIZE) =
      true ∧ decide ((fileHeader f).magicNumber = MAGIC_NUMBER) = true ∧
      decide (u32 f.len = u32 (HEADER_SIZE + (fileHeader f).doctableSize + (fileHeader f).indexSize)) =
        true ∧ decide ((crc32 (f.slice HEADER_SIZE (checkedBytes (bodyLength f)))).toNat =
          (fileHeader f).checksum) = true ∧ True) ↔ ValidFile f := by
    simp only [decide_eq_true_eq, File.slice_length]
    constructor
    · rintro ⟨-, hheader, hmagic, hsize, hchecksum, -⟩
      exact ⟨by omega, hmagic, hsize, hchecksum⟩
    · rintro ⟨hheader, hmagic, hsize, hchecksum⟩
      exact ⟨trivial, by omega, hmagic, hsize, hchecksum, trivial⟩
  refine Settles.congr ?_ hvalid
  rw [fileIndexReader]
  refine Completes.settles_bind (P := fun b d' => b = true ∧ d'.file = f ∧ d'.pos = 0)
    ⟨_, _, rfl, rfl, rfl, rfl⟩ ?_
  rintro _ d₁ ⟨rfl, hd₁, hpos₁⟩
  apply settles_verify
  intro _
  rw [readExactly, bind_assoc]
  refine (hread d₁ hd₁ hpos₁).settles_bind ?_
  rintro _ d₂ ⟨rfl, hd₂, hpos₂⟩
  rw [bind_assoc]
  apply settles_verify
  intro hlen
  rw [decide_eq_true_eq, File.slice_length] at hlen
  rw [pure_bind, hlen]
  dsimp only
  apply settles_verify
  intro _
  refine Completes.settles_bind (P := fun n d' => n = f.len ∧ d' = d₂)
    ⟨_, _, rfl, by rw [hd₂], rfl⟩ ?_
  rintro _ d₂ ⟨rfl, rfl⟩
  apply settles_verify
  intro hsize
  rw [if_pos rfl]
  have hheader : HEADER_SIZE ≤ f.len := by omega
  refine (validateLoop_file f hheader (of_decide_eq_true hsize) d₂ hd₂ (by omega)).settles_bind ?_
  rintro _ d₃ ⟨rfl, -⟩
  apply settles_verify
  intro _
  exact settles_pure

theorem accepts_iff (f : File) : Accepts f ↔ ValidFile f := by
  constructor
  · intro h
    by_contra hinvalid
    exact ((fileIndexReader_settles f).2 hinvalid).not_completes h
  · exact (fileIndexReader_settles f).1

theorem rejects_iff (f : File) : Rejects f ↔ ¬ ValidFile f := by
  constructor
  · intro h hvalid
    exact h.not_completes ((fileIndexReader_settles f).1 hvalid)
  · exact (fileIndexReader_settles f).2

/-! ## Bursts -/

/-- The bits of the body in the order the CRC takes them. -/
def bodyBits (f : File) : List Bool := (f.slice HEADER_SIZE (bodyLength f)).flatMap byteBits

/-- `g` is `f` with some bits of the body changed, all within 32 consecutive ones. -/
structure Burst (f g : File) : Prop where
  len : g.len = f.len
  header : ∀ x < HEADER_SIZE, g.byte x = f.byte x
  differs : bodyBits g ≠ bodyBits f
  within : ∃ p, ∀ i, i < p ∨ p + 32 ≤ i → (bodyBits g)[i]? = (bodyBits f)[i]?

theorem byteBits_length (b : UInt8) : (byteBits b).length = 8 := by simp [byteBits]

theorem byteBits_injective : Function.Injective byteBits := by
  intro a b hab
  have h := congrArg (Crc.ofBits 32) hab
  rw [ofBits_byteBits, ofBits_byteBits] at h
  have hnat := congrArg BitVec.toNat h
  rw [UInt32.toNat_toBitVec, UInt32.toNat_toBitVec, UInt8.toNat_toUInt32, UInt8.toNat_toUInt32] at hnat
  exact UInt8.toNat_inj.1 hnat

theorem flatMap_byteBits_length (bs : List UInt8) : (bs.flatMap byteBits).length = 8 * bs.length := by
  induction bs with
  | nil => rfl
  | cons b bs ih =>
    rw [List.flatMap_cons, List.length_append, ih, byteBits_length, List.length_cons]
    omega

theorem flatMap_byteBits_injective {bs cs : List UInt8}
    (h : bs.flatMap byteBits = cs.flatMap byteBits) : bs = cs := by
  induction bs generalizing cs with
  | nil =>
    have hlen := congrArg List.length h
    rw [flatMap_byteBits_length, flatMap_byteBits_length, List.length_nil] at hlen
    exact (List.length_eq_zero_iff.1 (by omega)).symm
  | cons b bs ih =>
    cases cs with
    | nil =>
      have hlen := congrArg List.length h
      rw [flatMap_byteBits_length, flatMap_byteBits_length] at hlen
      simp at hlen
    | cons c cs =>
      rw [List.flatMap_cons, List.flatMap_cons] at h
      obtain ⟨hb, hbs⟩ := List.append_inj h (by rw [byteBits_length, byteBits_length])
      rw [byteBits_injective hb, ih hbs]

/-- The bits of the first `n` bytes of the body. -/
theorem bodyBits_take (f : File) {n : ℕ} (hn : n ≤ bodyLength f) :
    (f.slice HEADER_SIZE n).flatMap byteBits = (bodyBits f).take (8 * n) := by
  have hsplit := File.slice_add f HEADER_SIZE n (bodyLength f - n)
  rw [Nat.add_sub_cancel' hn] at hsplit
  rw [bodyBits, hsplit, List.flatMap_append, List.take_append_of_le_length, List.take_of_length_le]
  · rw [flatMap_byteBits_length, File.slice_length]
  · rw [flatMap_byteBits_length, File.slice_length]

/-- The checksums of the first bytes of two bodies that differ by a burst agree only if the
bytes do. -/
theorem crc32_burst {f g : File} (h : Burst f g) {n : ℕ} (hn : n ≤ bodyLength f)
    (hcrc : crc32 (g.slice HEADER_SIZE n) = crc32 (f.slice HEADER_SIZE n)) :
    g.slice HEADER_SIZE n = f.slice HEADER_SIZE n := by
  have hn' : n ≤ bodyLength g := by rwa [bodyLength, h.len]
  obtain ⟨p, hp⟩ := h.within
  by_contra hne
  have hbits : (g.slice HEADER_SIZE n).flatMap byteBits ≠ (f.slice HEADER_SIZE n).flatMap byteBits :=
    fun heq => hne (flatMap_byteBits_injective heq)
  refine Crc.foldl_foldBit_burst reflectedPolynomial (by decide) (p := p) ?_ hbits ?_
    crcInitial.toBitVec ?_
  · rw [flatMap_byteBits_length, flatMap_byteBits_length, File.slice_length, File.slice_length]
  · intro i hi
    rw [bodyBits_take f hn, bodyBits_take g hn', List.getElem?_take, List.getElem?_take, hp i hi]
  · rw [← foldl_foldByteIntoCRC_toBitVec, ← foldl_foldByteIntoCRC_toBitVec]
    rw [crc32, crc32, getFinalCRC, getFinalCRC] at hcrc
    exact congrArg UInt32.toBitVec ((UInt32.xor_left_inj _).1 hcrc)

theorem fileHeader_burst {f g : File} (h : Burst f g) : fileHeader g = fileHeader f := by
  have hslice : g.slice 0 HEADER_SIZE = f.slice 0 HEADER_SIZE :=
    File.slice_congr fun x _ hx => h.header x (by omega)
  rw [fileHeader, fileHeader, hslice]

/-- An altered file passes only if no byte the loop reads was altered. -/
theorem validFile_burst {f g : File} (hf : ValidFile f) (h : Burst f g) :
    ValidFile g ↔ g.slice HEADER_SIZE (checkedBytes (bodyLength f)) =
      f.slice HEADER_SIZE (checkedBytes (bodyLength f)) := by
  have hbody : bodyLength g = bodyLength f := by rw [bodyLength, bodyLength, h.len]
  have hheader := fileHeader_burst h
  constructor
  · intro hg
    have hcrc := hg.checksum.trans (congrArg IndexFileHeader.checksum hheader)
    rw [← hf.checksum, hbody] at hcrc
    exact crc32_burst h (checkedBytes_le _) (UInt32.toNat_inj.1 hcrc)
  · intro hsame
    refine ⟨?_, ?_, ?_, ?_⟩
    · rw [h.len]
      exact hf.header
    · rw [hheader]
      exact hf.magic
    · rw [hheader, h.len]
      exact hf.size
    · rw [hheader, hbody, hsame]
      exact hf.checksum

/-- Burst corruption is detected exactly when some altered byte is among those that the
checksum loop reads: the body is shorter than `2 ^ 32` bytes, or its length is not a whole
number of reads, or the alteration begins before the loop's counter first gets to zero. -/
theorem burst_rejected_iff {f g : File} (hf : Accepts f) (h : Burst f g) :
    Rejects g ↔ bodyLength f < 2 ^ 32 ∨ ¬ 512 ∣ bodyLength f ∨
      ∃ x < bodyLength f % 2 ^ 32, g.byte (HEADER_SIZE + x) ≠ f.byte (HEADER_SIZE + x) := by
  rw [accepts_iff] at hf
  have hbody : bodyLength g = bodyLength f := by rw [bodyLength, bodyLength, h.len]
  rw [rejects_iff, validFile_burst hf h]
  by_cases hcut : 2 ^ 32 ≤ bodyLength f ∧ 512 ∣ bodyLength f
  · have hchecked : checkedBytes (bodyLength f) = bodyLength f % 2 ^ 32 := if_pos hcut
    rw [hchecked, ← not_iff_not, not_not]
    constructor
    · rintro hsame (hlt | hdvd | ⟨x, hx, hne⟩)
      · omega
      · exact hdvd hcut.2
      · exact hne (File.slice_eq_iff.1 hsame x hx)
    · intro hcond
      apply File.slice_eq_iff.2
      intro x hx
      by_contra hne
      exact hcond (.inr (.inr ⟨x, hx, hne⟩))
  · have hchecked : checkedBytes (bodyLength f) = bodyLength f := if_neg hcut
    rw [hchecked]
    constructor
    · intro _
      omega
    · intro _ hsame
      apply h.differs
      rw [bodyBits, bodyBits, hbody, hsame]

/-- An index file of four zero bytes besides its header, with or without the lowest bit of
its last byte flipped. -/
def fourZeros (last : UInt8) : File :=
  File.empty.put 0 (beBytes 4 MAGIC_NUMBER ++ beBytes 4 (crc32 [0, 0, 0, 0]).toNat ++ beBytes 4 4 ++
    beBytes 4 0 ++ [0, 0, 0, last])

theorem burst_rejected_fourZeros : Rejects (fourZeros 1) := by
  have hf : Accepts (fourZeros 0) := by
    rw [accepts_iff]
    exact ⟨by decide +kernel, by decide +kernel, by decide +kernel, by decide +kernel⟩
  have h : Burst (fourZeros 0) (fourZeros 1) := by
    refine ⟨by decide +kernel, by decide +kernel, by decide +kernel, 0, ?_⟩
    intro i hi
    have hf : (bodyBits (fourZeros 0)).length ≤ i := by
      have : (bodyBits (fourZeros 0)).length = 32 := by decide +kernel
      omega
    have hg : (bodyBits (fourZeros 1)).length ≤ i := by
      have : (bodyBits (fourZeros 1)).length = 32 := by decide +kernel
      omega
    rw [List.getElem?_eq_none hf, List.getElem?_eq_none hg]
  exact (burst_rejected_iff hf h).2 (.inl (by decide +kernel))

/-- A file with `n + 1` bytes after a header that gives both tables the size zero; all bytes
but the last are zero. -/
def hugeFile (n : ℕ) (last : UInt8) : File where
  len := HEADER_SIZE + (n + 1)
  byte x := if x < 4 then (beBytes 4 MAGIC_NUMBER).getD x 0 else if x = HEADER_SIZE + n then last else 0

theorem hugeFile_bodyLength (n : ℕ) (last : UInt8) : bodyLength (hugeFile n last) = n + 1 :=
  Nat.add_sub_cancel_left _ _

theorem hugeFile_last (n : ℕ) (last : UInt8) : (hugeFile n last).byte (HEADER_SIZE + n) = last := by
  have hbody : ¬ HEADER_SIZE + n < 4 := by
    rw [HEADER_SIZE]
    omega
  dsimp only [hugeFile]
  rw [if_neg hbody, if_pos rfl]

theorem hugeFile_burst (n : ℕ) : Burst (hugeFile n 0) (hugeFile n 1) := by
  have hsame (x : ℕ) (hx : x < HEADER_SIZE + n) : (hugeFile n 1).byte x = (hugeFile n 0).byte x := by
    dsimp only [hugeFile]
    rw [if_neg (by omega : ¬ x = HEADER_SIZE + n), if_neg (by omega : ¬ x = HEADER_SIZE + n)]
  refine ⟨rfl, fun x hx => hsame x (by omega), ?_, 8 * n, ?_⟩
  · intro hbits
    have hbytes := flatMap_byteBits_injective hbits
    rw [hugeFile_bodyLength, hugeFile_bodyLength] at hbytes
    have hlast := File.slice_eq_iff.1 hbytes n (by omega)
    rw [hugeFile_last, hugeFile_last] at hlast
    exact absurd hlast (by decide)
  · rintro i (hi | hi)
    · have htake : (bodyBits (hugeFile n 1)).take (8 * n) = (bodyBits (hugeFile n 0)).take (8 * n) := by
        rw [← bodyBits_take _ (by rw [hugeFile_bodyLength]; omega),
          ← bodyBits_take _ (by rw [hugeFile_bodyLength]; omega)]
        congr 1
        exact File.slice_congr fun x _ hx => hsame x hx
      rw [← List.getElem?_take_of_lt hi, htake, List.getElem?_take_of_lt hi]
    · have hlen (last : UInt8) : (bodyBits (hugeFile n last)).length ≤ i := by
        rw [bodyBits, flatMap_byteBits_length, File.slice_length, hugeFile_bodyLength]
        omega
      rw [List.getElem?_eq_none (hlen 1), List.getElem?_eq_none (hlen 0)]

theorem hugeFile_header (n : ℕ) (last : UInt8) :
    fileHeader (hugeFile n last) = ⟨MAGIC_NUMBER, 0, 0, 0⟩ := by
  have hslice : (hugeFile n last).slice 0 HEADER_SIZE = (hugeFile 0 0).slice 0 HEADER_SIZE := by
    apply File.slice_congr
    intro x _ hx
    dsimp only [hugeFile]
    rw [if_neg (by omega : ¬ x = HEADER_SIZE + n), if_neg (by omega : ¬ x = HEADER_SIZE + 0)]
  rw [fileHeader, hslice]
  decide +kernel

/-- Four gigabytes of zeros: the loop reads none of them. -/
theorem burst_undetected : ¬ ∀ f g, Accepts f → Burst f g → Rejects g := by
  intro hall
  have hvalid (last : UInt8) : ValidFile (hugeFile (2 ^ 32 - 1) last) := by
    have hheader := hugeFile_header (2 ^ 32 - 1) last
    refine ⟨Nat.le_add_right _ _, by rw [hheader], ?_, ?_⟩
    · rw [hheader]
      exact Nat.add_mod_right HEADER_SIZE (2 ^ 32)
    · have hnone : checkedBytes (2 ^ 32 - 1 + 1) = 0 := by decide
      have hcrc : (crc32 []).toNat = 0 := by decide
      rw [hheader, hugeFile_bodyLength, hnone]
      exact hcrc
  have hrej := hall _ _ ((accepts_iff _).2 (hvalid 0)) (hugeFile_burst _)
  exact (rejects_iff _).1 hrej (hvalid 1)

end Courses.SearchEngine
