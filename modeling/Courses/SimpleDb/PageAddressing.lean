import Courses.Lib.RandomAccess
import Courses.SimpleDb.HeapFileScan

/-!
# Where a page is in its file

`HeapFile.writePage` and `HeapFile.readPage`. The offset of a page is the product of two
`int`s, which is widened to a `long` only afterwards. From page 2^19 on it is not
4096 times the page number any more: it is negative, or the offset of a low page.
-/
namespace Courses.SimpleDb

open Courses.Lib Courses.Lib.RandomAccessFile

/-- `BufferPool.PAGE_SIZE * pageno` -/
def pageOffset (pageno : ℤ) : ℤ := wrap32 (pageSize * pageno)

/-- `HeapFile.writePage` on the file once it is open. -/
def writePage (page : HeapPage) : FileM PageError Unit := do
  let pageno := page.pid.pgNo
  match page.getPageData with
  | .error e => throw (.thrown e)
  | .ok buffer =>
    seek (.ofInt (pageOffset pageno))
    write buffer

/-- `HeapFile.readPage` on the bytes of the file. -/
def readPage (decode : List UInt8 → List UInt16) (td : TupleDesc) (pid : HeapPageId)
    (file : List UInt8) : Except ScanError HeapPage :=
  let pos := pageOffset pid.pgNo
  if pos < 0 then .error .illegalArgument
  else
    let buffer := bytesAt file pos.toNat
    if buffer.length = pageSize then (HeapPage.new decode pid td buffer).mapError .page
    else .error .couldNotReadPage

theorem HeapFile.readPage_bytes {decode : List UInt8 → List UInt16} (file : HeapFile decode)
    (pageno : ℤ) :
    file.readPage pageno = SimpleDb.readPage decode file.td ⟨file.id, pageno⟩ file.file := rfl

/-! ## The offset -/

theorem pageOffset_eq {n : ℤ} {m : ℕ} (hm : n % 2 ^ 20 = m) :
    pageOffset n = if m < 2 ^ 19 then (pageSize * m : ℤ) else pageSize * m - 2 ^ 32 := by
  rw [pageOffset, wrap32, Int.bmod_def, pageSize]
  split_ifs <;> omega

theorem pageOffset_lt (n : ℤ) : pageOffset n < 2 ^ 31 := by
  rw [pageOffset, wrap32, Int.bmod_def]
  split_ifs <;> omega

theorem pageOffset_of_lt {n : ℕ} (hn : n < 2 ^ 19) : pageOffset n = (pageSize * n : ℕ) := by
  have hmod : (n : ℤ) % 2 ^ 20 = n := by omega
  rw [pageOffset_eq hmod, if_pos hn, Nat.cast_mul]

theorem toNat_ofInt_of_neg {x : ℤ} (hneg : x < 0) (hle : -2 ^ 63 ≤ x) :
    2 ^ 63 ≤ (UInt64.ofInt x).toNat := by
  rw [UInt64.ofInt, UInt64.toNat_ofNat']
  omega

theorem toNat_ofInt_of_nonneg {x : ℤ} (hx : 0 ≤ x) (hlt : x < 2 ^ 63) :
    (UInt64.ofInt x).toNat = x.toNat := by
  rw [UInt64.ofInt, UInt64.toNat_ofNat']
  omega

variable {page : HeapPage} {data file : List UInt8}

theorem writePage_neg (hdata : page.getPageData = .ok data) (hneg : pageOffset page.pid.pgNo < 0) :
    writePage page ⟨file, 0⟩ = .error .negativeSeek ⟨file, 0⟩ := by
  have hle : -2 ^ 63 ≤ pageOffset page.pid.pgNo := by
    rw [pageOffset, wrap32, Int.bmod_def]
    split_ifs <;> omega
  have hseek : ¬ (UInt64.ofInt (pageOffset page.pid.pgNo)).toNat < 2 ^ 63 :=
    Nat.not_lt.2 (toNat_ofInt_of_neg hneg hle)
  simp only [writePage, hdata, bind, EStateM.bind, seek, if_neg hseek]

theorem writePage_nonneg (hdata : page.getPageData = .ok data) (hlen : data.length = pageSize)
    {pos : ℕ} (hpos : pageOffset page.pid.pgNo = pos) :
    writePage page ⟨file, 0⟩ = .ok () ⟨overwrite file pos data, pos + pageSize⟩ := by
  have hlt := pageOffset_lt page.pid.pgNo
  have hnat : (UInt64.ofInt (pageOffset page.pid.pgNo)).toNat = pos := by
    rw [toNat_ofInt_of_nonneg] <;> omega
  have hseek : pos < 2 ^ 63 := by omega
  have hfits : pos + pageSize < 2 ^ 63 := by
    rw [pageSize]
    omega
  simp only [writePage, hdata, bind, EStateM.bind, seek, write, hnat, if_pos hseek, hlen,
    if_pos hfits, overwrite]

theorem readPage_ok {decode : List UInt8 → List UInt16} {td : TupleDesc} {pid : HeapPageId}
    {page' : HeapPage} {pos : ℕ} (hpos : pageOffset pid.pgNo = pos)
    (hbytes : bytesAt file pos = data) (hlen : data.length = pageSize)
    (hnew : HeapPage.new decode pid td data = .ok page') :
    readPage decode td pid file = .ok page' := by
  have hnonneg : ¬ pageOffset pid.pgNo < 0 := by omega
  have hnat : (pageOffset pid.pgNo).toNat = pos := by omega
  simp only [readPage, if_neg hnonneg, hnat, hbytes, if_pos hlen, hnew]
  rfl

/-! ## Writing a page -/

/-- The header and the fields of the tuples are the same. -/
structure SamePage (page page' : HeapPage) : Prop where
  pid_eq : page'.pid = page.pid
  td_eq : page'.td = page.td
  header_eq : page'.header = page.header
  fields_eq : ∀ i < page.tuples.length,
    (page'.occupant i).map Tuple.fields = (page.occupant i).map Tuple.fields

/-- The page fits into the bytes of a page and survives the way there and back. -/
def RoundTrips (decode : List UInt8 → List UInt16) (page : HeapPage) : Prop :=
  ∃ data page', page.getPageData = .ok data ∧ data.length = pageSize ∧
    HeapPage.new decode page.pid page.td data = .ok page' ∧ SamePage page page'

/-- Writing the page changes the bytes that its number stands for, and reading that number
gives it back. -/
def WrittenInPlace (decode : List UInt8 → List UInt16) (page : HeapPage) (file : List UInt8) :
    Prop :=
  ∃ data f, page.getPageData = .ok data ∧ data.length = pageSize ∧
    writePage page ⟨file, 0⟩ = .ok () f ∧
    Overwrites file (pageSize * page.pid.pgNo.toNat) data f.bytes ∧
    ∃ page', readPage decode page.td page.pid f.bytes = .ok page' ∧ SamePage page page'

/-- The file has the bytes of the page where they belong, and also at the low page whose offset
is the one that is computed. -/
def AlreadyThere (page : HeapPage) (file : List UInt8) : Prop :=
  ∃ m : ℕ, m < 2 ^ 19 ∧ page.pid.pgNo % 2 ^ 20 = m ∧
    page.getPageData = .ok (bytesAt file (pageSize * m)) ∧
    page.getPageData = .ok (bytesAt file (pageSize * page.pid.pgNo.toNat))

variable {decode : List UInt8 → List UInt16}

theorem samePage_image (page : HeapPage) : SamePage page page.image := by
  refine ⟨rfl, rfl, rfl, fun i _ => ?_⟩
  rw [HeapPage.occupant_image, HeapPage.reread, Option.map_map]
  rfl

theorem roundTrips_of_decodable (hdec : page.Decodable decode) (hs : page.td.Small) :
    RoundTrips decode page := by
  obtain ⟨data, hdata, hlen, hnew⟩ := HeapPage.new_getPageData hdec hs
  exact ⟨data, page.image, hdata, hlen, hnew, samePage_image page⟩

theorem le_of_bytesAt {pos : ℕ} (h : (bytesAt file pos).length = pageSize) :
    pos + pageSize ≤ file.length := by
  have hpage : 0 < pageSize := by decide
  rw [bytesAt, List.length_take, List.length_drop] at h
  omega

/-- What a write in place leaves where the offset is that of another page. -/
theorem alreadyThere_of_overwrites {n m : ℕ} (hm : m < 2 ^ 19) (hn : 2 ^ 19 ≤ n)
    (hlen : data.length = pageSize)
    (h : Overwrites file (pageSize * n) data (overwrite file (pageSize * m) data)) :
    bytesAt file (pageSize * m) = data ∧ bytesAt file (pageSize * n) = data := by
  have hne : data ≠ [] := List.ne_nil_of_length_pos (by rw [hlen]; decide)
  have hlow : Overwrites file (pageSize * m) data (overwrite file (pageSize * m) data) :=
    Overwrites.of_overwrite hne
  have hgap : pageSize * m + pageSize ≤ pageSize * n := by
    rw [pageSize]
    omega
  have hlong : pageSize * n + pageSize ≤ file.length := by
    have := h.length
    rw [hlow.length, hlen] at this
    have hpage : 0 < pageSize := by decide
    omega
  constructor
  · have hslice := h.slice_eq (q := pageSize * m) (n := pageSize) (by omega) (.inl hgap)
    have hinside := hlow.inside
    rw [hlen] at hinside
    exact hslice.symm.trans hinside
  · have hslice := hlow.slice_eq (q := pageSize * n) (n := pageSize) hlong
      (.inr (by rw [hlen]; exact hgap))
    have hinside := h.inside
    rw [hlen] at hinside
    exact hslice.symm.trans hinside

/-- A page of pairs with nothing on it. -/
def blankPage (pgNo : ℤ) : HeapPage where
  pid := ⟨0, pgNo⟩
  td := HeapPage.pairDesc
  header := List.replicate 4 0
  tuples := List.replicate 30 none
  numSlots_nonneg := by decide
  header_length := by decide
  tuples_length := by decide

theorem roundTrips_blankPage (pgNo : ℤ) : RoundTrips decode (blankPage pgNo) := by
  have hsmall : HeapPage.pairDesc.Small := fun _ => by decide
  refine roundTrips_of_decodable ?_ hsmall
  intro i _ hb
  have hclear : slotBit (blankPage pgNo).header i = false :=
    HeapPage.slotBit_zero (fun b hb => List.eq_of_mem_replicate hb) i
  exact absurd (hclear.symm.trans hb) (by decide)

end Courses.SimpleDb
