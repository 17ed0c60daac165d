import Courses.Lib.PullIter
import Courses.SimpleDb.HeapFileRoundTrip

/-!
# Scanning a heap file

The iterator of `HeapFile.java`, for a transaction that runs alone and is handed the pages as
the file has them. When the tuples of a page are used up, `hasNext` goes on by one page only
and does not look further if that one is empty. So the scan ends at the first empty page after
page 0.
-/
namespace Courses.SimpleDb

open Courses.Lib

/-- The exceptions of a scan; `couldNotReadPage` is the one of a page that is cut short. -/
inductive ScanError
  | alreadyOpen
  | nullPointer
  | illegalArgument
  | couldNotReadPage
  | page (e : PageError)

/-- The bytes of the page at an offset. -/
def bytesAt (file : List UInt8) (pos : ℕ) : List UInt8 := (file.drop pos).take pageSize

/-- A file, with what its whole pages hold. -/
structure HeapFile (decode : List UInt8 → List UInt16) where
  id : ℤ
  td : TupleDesc
  file : List UInt8
  pages : List HeapPage
  pages_length : pages.length = file.length / pageSize
  pages_new : ∀ (i : ℕ) page, pages[i]? = some page →
    HeapPage.new decode ⟨id, i⟩ td (bytesAt file (pageSize * i)) = .ok page

/-- `HeapFileIterator`, with what is left of the page's iterator. -/
structure HeapFileIterator where
  isOpen : Bool
  curPageNo : ℤ
  pageIter : Option (List (Option Tuple))

/-- The tuples in the slots in use. -/
def HeapPage.usedTuples (page : HeapPage) : List (Option Tuple) :=
  ((List.range page.tuples.length).filter (slotBit page.header)).map fun i =>
    page.tuples[i]?.join

/-- A slot is in use. -/
def HeapPage.Occupied (page : HeapPage) : Prop :=
  ∃ i < page.tuples.length, slotBit page.header i = true

namespace HeapFile

variable {decode : List UInt8 → List UInt16} (file : HeapFile decode)

def numPages : ℤ := wrap32 (file.file.length / pageSize : ℕ)

/-- The offset is an `int`, and `seek` does not take a negative one. -/
def readPage (pageno : ℤ) : Except ScanError HeapPage :=
  let pos := wrap32 (pageSize * pageno)
  if pos < 0 then .error .illegalArgument
  else
    let buffer := bytesAt file.file pos.toNat
    if buffer.length = pageSize then
      (HeapPage.new decode ⟨file.id, pageno⟩ file.td buffer).mapError .page
    else .error .couldNotReadPage

/-- The tuples in the slots in use, in page and slot order. -/
def tuples : List (Option Tuple) := file.pages.flatMap HeapPage.usedTuples

end HeapFile

namespace HeapFileIterator

variable {decode : List UInt8 → List UInt16} (file : HeapFile decode)

def nextPage (curPageNo : ℤ) : Except (Fault ScanError) (List (Option Tuple)) :=
  match file.readPage curPageNo with
  | .error e => .error (.thrown e)
  | .ok hp => hp.iterator.mapError fun e => .thrown (.page e)

def rewind : Except (Fault ScanError) HeapFileIterator :=
  (nextPage file 0).map fun tups => ⟨true, 0, some tups⟩

def openIt (s : HeapFileIterator) : Except (Fault ScanError) HeapFileIterator :=
  if s.isOpen then .error (.thrown .alreadyOpen) else rewind file

def hasNext (s : HeapFileIterator) : Except (Fault ScanError) (Bool × HeapFileIterator) :=
  if !s.isOpen then .ok (false, s)
  else
    match s.pageIter with
    | none => .error (.thrown .nullPointer)
    | some (_ :: _) => .ok (true, s)
    | some [] =>
      if s.curPageNo < wrap32 (file.numPages - 1) then
        (nextPage file (s.curPageNo + 1)).map fun tups =>
          (!tups.isEmpty, { s with curPageNo := s.curPageNo + 1, pageIter := some tups })
      else .ok (false, s)

def next (s : HeapFileIterator) :
    Except (Fault ScanError) (Option (Option Tuple) × HeapFileIterator) :=
  if !s.isOpen then .ok (none, s)
  else
    match s.pageIter with
    | none => .error (.thrown .nullPointer)
    | some [] => .ok (none, s)
    | some (t :: rest) => .ok (some t, { s with pageIter := some rest })

def close (s : HeapFileIterator) : HeapFileIterator := { s with isOpen := false }

end HeapFileIterator

namespace HeapFile

variable {decode : List UInt8 → List UInt16} (file : HeapFile decode)

def iterator : PullIter ScanError (Option Tuple) where
  State := HeapFileIterator
  start := ⟨false, 0, none⟩
  openIt := HeapFileIterator.openIt file
  hasNext := HeapFileIterator.hasNext file
  next := HeapFileIterator.next
  rewind _ := HeapFileIterator.rewind file
  close := HeapFileIterator.close
  held _ := none
  left s := (s.pageIter.getD []).length +
    ((file.pages.drop (s.curPageNo + 1).toNat).flatMap HeapPage.usedTuples).length

/-- What a user gets who opens the iterator and calls `next` while there is more. -/
def scan : Except (Fault ScanError) (List (Option Tuple)) :=
  (file.iterator.openIt file.iterator.start).bind file.iterator.drain

/-- The last page the iterator can get to. -/
def lastPage : ℕ := (wrap32 (file.numPages - 1)).toNat

/-- After page 0 the occupied pages are those up to some page `k`; page `k` is not beyond what the
iterator takes for the last page, and it and the page after it start where `readPage` can
seek. -/
def ScannedWhole : Prop :=
  file.pages ≠ [] ∧ ∃ k ≤ file.lastPage, min (k + 1) file.lastPage < 2 ^ 19 ∧
    ∀ i page, 1 ≤ i → file.pages[i]? = some page → (page.Occupied ↔ i ≤ k)

end HeapFile

namespace HeapPage

variable {page : HeapPage}

theorem usedTuples_ne_nil_iff : page.usedTuples ≠ [] ↔ page.Occupied := by
  rw [usedTuples, Ne, List.map_eq_nil_iff, List.filter_eq_nil_iff, Occupied]
  simp only [List.mem_range, not_forall, not_not]
  simp only [exists_prop]

end HeapPage

namespace HeapFile

variable {decode : List UInt8 → List UInt16} {file : HeapFile decode} {k : ℕ}

/-! ### One page -/

theorem lastPage_lt (hne : file.pages ≠ []) : file.lastPage < file.pages.length := by
  have hpos := List.length_pos_iff.2 hne
  rw [file.pages_length] at hpos ⊢
  have hle : wrap32 (wrap32 ((file.file.length / pageSize : ℕ) : ℤ) - 1) ≤
      ((file.file.length / pageSize : ℕ) : ℤ) - 1 := by
    rw [sub_eq_add_neg, wrap32_add, wrap32, Int.bmod_def]
    split <;> omega
  rw [lastPage, numPages]
  omega

theorem readPage_eq {page : HeapPage} (hpage : file.pages[k]? = some page) (hk : k < 2 ^ 19) :
    file.readPage k = .ok page := by
  have hlt : k < file.file.length / pageSize := by
    rw [← file.pages_length]
    exact (List.getElem?_eq_some_iff.1 hpage).1
  have hpos : wrap32 (pageSize * (k : ℤ)) = (pageSize * k : ℕ) := by
    rw [← Nat.cast_mul]
    exact wrap32_eq (Int.natCast_nonneg _) (by simp only [pageSize]; omega)
  have hlength : (bytesAt file.file (pageSize * k)).length = pageSize := by
    rw [bytesAt, List.length_take, List.length_drop]
    simp only [pageSize] at hlt ⊢
    omega
  rw [readPage, hpos, if_neg (not_lt.2 (Int.natCast_nonneg _)), Int.toNat_natCast, if_pos hlength,
    file.pages_new k page hpage]
  rfl

theorem nextPage_eq {page : HeapPage} (hpage : file.pages[k]? = some page) (hk : k < 2 ^ 19) :
    HeapFileIterator.nextPage file k = .ok page.usedTuples := by
  rw [HeapFileIterator.nextPage, readPage_eq hpage hk]
  simp only [HeapPage.iterator_eq]
  rfl

/-- The first page that is too far for an `int`. -/
theorem nextPage_far : HeapFileIterator.nextPage file (2 ^ 19 : ℕ) =
    .error (.thrown .illegalArgument) := by
  have hpos : wrap32 (pageSize * ((2 ^ 19 : ℕ) : ℤ)) = -2 ^ 31 := by decide
  rw [HeapFileIterator.nextPage, readPage, hpos]
  rfl

/-! ### The pages one after the other -/

open PullIter (Gives)

variable {ts : List (Option Tuple)} {r : Except (Fault ScanError) Unit}

/-- Within a page. -/
theorem gives_page (tups : List (Option Tuple))
    (h : Gives file.iterator (⟨true, k, some []⟩ : HeapFileIterator) ts r) :
    Gives file.iterator (⟨true, k, some tups⟩ : HeapFileIterator) (tups ++ ts) r := by
  induction tups with
  | nil => exact h
  | cons t tups ih => exact .more rfl rfl ih

/-- The step of `hasNext` to the next page. -/
theorem hasNext_turn (hk : k < file.lastPage) :
    HeapFileIterator.hasNext file ⟨true, k, some []⟩ =
      (HeapFileIterator.nextPage file (k + 1 : ℕ)).map fun tups =>
        (!tups.isEmpty, ⟨true, (k + 1 : ℕ), some tups⟩) := by
  have hlt : (k : ℤ) < wrap32 (file.numPages - 1) := by
    rw [lastPage] at hk
    omega
  rw [HeapFileIterator.hasNext]
  simp only [Bool.not_true, Bool.false_eq_true, if_false, if_pos hlt]
  push_cast
  rfl

theorem iterator_hasNext : file.iterator.hasNext = HeapFileIterator.hasNext file := rfl

/-- From the end of a page to an occupied one. -/
theorem gives_turn {page : HeapPage} (hk : k < file.lastPage) (hseek : k + 1 < 2 ^ 19)
    (hpage : file.pages[k + 1]? = some page) (hocc : page.Occupied)
    (h : Gives file.iterator (⟨true, (k + 1 : ℕ), some []⟩ : HeapFileIterator) ts r) :
    Gives file.iterator (⟨true, k, some []⟩ : HeapFileIterator) (page.usedTuples ++ ts) r := by
  cases hused : page.usedTuples with
  | nil => exact absurd hused (HeapPage.usedTuples_ne_nil_iff.2 hocc)
  | cons t tups =>
    have hhas : file.iterator.hasNext (⟨true, k, some []⟩ : HeapFileIterator) =
        .ok (true, (⟨true, (k + 1 : ℕ), some (t :: tups)⟩ : HeapFileIterator)) := by
      rw [iterator_hasNext, hasNext_turn hk, nextPage_eq hpage hseek, hused]
      rfl
    exact .more hhas rfl (gives_page tups h)

/-- Over occupied pages. -/
theorem gives_pages (d : ℕ) (hlast : k + d ≤ file.lastPage) (hseek : k + d < 2 ^ 19)
    (hocc : ∀ i, k < i → i ≤ k + d → ∃ page, file.pages[i]? = some page ∧ page.Occupied)
    (h : Gives file.iterator (⟨true, (k + d : ℕ), some []⟩ : HeapFileIterator) [] r) :
    Gives file.iterator (⟨true, k, some []⟩ : HeapFileIterator)
      (((file.pages.drop (k + 1)).take d).flatMap HeapPage.usedTuples) r := by
  induction d generalizing k with
  | zero => simpa using h
  | succ d ih =>
    have hassoc : k + (d + 1) = k + 1 + d := by omega
    rw [hassoc] at hlast hseek hocc h
    obtain ⟨page, hpage, hocc₁⟩ := hocc (k + 1) (by omega) (by omega)
    have hrest := ih hlast hseek (fun i hi hle => hocc i (by omega) hle) h
    obtain ⟨hlt, rfl⟩ := List.getElem?_eq_some_iff.1 hpage
    rw [List.drop_eq_getElem_cons hlt, List.take_succ_cons, List.flatMap_cons]
    exact gives_turn (by omega) (by omega) hpage hocc₁ hrest

/-- The iterator stops at page `k`. -/
theorem scan_of_stop (hne : file.pages ≠ []) (hlast : k ≤ file.lastPage) (hseek : k < 2 ^ 19)
    (hocc : ∀ i, 0 < i → i ≤ k → ∃ page, file.pages[i]? = some page ∧ page.Occupied)
    (hend : Gives file.iterator (⟨true, k, some []⟩ : HeapFileIterator) [] r) :
    file.scan = r.map fun _ => (file.pages.take (k + 1)).flatMap HeapPage.usedTuples := by
  obtain ⟨page, pages, hpages⟩ := List.exists_cons_of_ne_nil hne
  have hpage : file.pages[0]? = some page := by simp [hpages]
  have hopen : file.iterator.openIt file.iterator.start =
      .ok (⟨true, 0, some page.usedTuples⟩ : HeapFileIterator) := by
    have hread := nextPage_eq hpage (by decide)
    change (HeapFileIterator.nextPage file 0).map _ = _
    rw [Nat.cast_zero] at hread
    rw [hread]
    rfl
  have hgives := gives_pages k (by omega) (by omega) (fun i hi hle => hocc i hi (by omega))
    (by rwa [Nat.zero_add])
  have hall := gives_page page.usedTuples hgives
  rw [Nat.cast_zero] at hall
  rw [scan, hopen]
  refine (PullIter.drain_of_gives hall ?_).trans ?_
  · rw [List.length_append]
    refine Nat.add_le_add_left ?_ _
    exact ((List.take_sublist k _).flatMap HeapPage.usedTuples).length_le
  · simp [hpages]

/-! ### Where it stops -/

theorem gives_last :
    Gives file.iterator (⟨true, file.lastPage, some []⟩ : HeapFileIterator) [] (.ok ()) := by
  have hnot : ¬ ((file.lastPage : ℕ) : ℤ) < wrap32 (file.numPages - 1) := by
    rw [lastPage]
    omega
  have hhas : file.iterator.hasNext (⟨true, file.lastPage, some []⟩ : HeapFileIterator) =
      .ok (false, (⟨true, file.lastPage, some []⟩ : HeapFileIterator)) := by
    rw [iterator_hasNext, HeapFileIterator.hasNext]
    simp only [Bool.not_true, Bool.false_eq_true, if_false, if_neg hnot]
    rfl
  exact .done hhas

theorem gives_empty {page : HeapPage} (hk : k < file.lastPage) (hseek : k + 1 < 2 ^ 19)
    (hpage : file.pages[k + 1]? = some page) (hempty : ¬ page.Occupied) :
    Gives file.iterator (⟨true, k, some []⟩ : HeapFileIterator) [] (.ok ()) := by
  have hused : page.usedTuples = [] := not_not.1 (mt HeapPage.usedTuples_ne_nil_iff.1 hempty)
  have hhas : file.iterator.hasNext (⟨true, k, some []⟩ : HeapFileIterator) =
      .ok (false, (⟨true, (k + 1 : ℕ), some []⟩ : HeapFileIterator)) := by
    rw [iterator_hasNext, hasNext_turn hk, nextPage_eq hpage hseek, hused]
    rfl
  exact .done hhas

theorem gives_far (hk : k < file.lastPage) (hseek : k + 1 = 2 ^ 19) :
    Gives file.iterator (⟨true, k, some []⟩ : HeapFileIterator) []
      (.error (.thrown .illegalArgument)) := by
  have hhas : file.iterator.hasNext (⟨true, k, some []⟩ : HeapFileIterator) =
      .error (.thrown .illegalArgument) := by
    rw [iterator_hasNext, hasNext_turn hk, hseek, nextPage_far]
    rfl
  exact .fail hhas

/-- The iterator has been over the pages up to `k` and finds nothing more. -/
structure StopsAt (file : HeapFile decode) (k : ℕ) : Prop where
  le_last : k ≤ file.lastPage
  seeks : k < 2 ^ 19
  occupied : ∀ i, 0 < i → i ≤ k → ∃ page, file.pages[i]? = some page ∧ page.Occupied
  stops : k < file.lastPage →
    k + 1 < 2 ^ 19 ∧ ∃ page, file.pages[k + 1]? = some page ∧ ¬ page.Occupied

theorem StopsAt.scan_eq (hne : file.pages ≠ []) (h : file.StopsAt k) :
    file.scan = .ok ((file.pages.take (k + 1)).flatMap HeapPage.usedTuples) := by
  have hend : Gives file.iterator (⟨true, k, some []⟩ : HeapFileIterator) [] (.ok ()) := by
    obtain heq | hlt := h.le_last.eq_or_lt
    · rw [heq]
      exact gives_last
    · obtain ⟨hseek, page, hpage, hempty⟩ := h.stops hlt
      exact gives_empty hlt hseek hpage hempty
  exact scan_of_stop hne h.le_last h.seeks h.occupied hend

/-- The scan of a file with a page stops, or throws where it cannot seek. -/
theorem exists_stop (hne : file.pages ≠ []) :
    (∃ k, file.StopsAt k) ∨ file.scan = .error (.thrown .illegalArgument) := by
  classical
  let Stop (k : ℕ) : Prop := k = file.lastPage ∨ k + 1 = 2 ^ 19 ∨
    ∃ page, file.pages[k + 1]? = some page ∧ ¬ page.Occupied
  have hex : ∃ k, Stop k := ⟨file.lastPage, .inl rfl⟩
  have hlast : Nat.find hex ≤ file.lastPage := Nat.find_min' hex (.inl rfl)
  have hseek : Nat.find hex ≤ 2 ^ 19 - 1 := Nat.find_min' hex (.inr (.inl (by norm_num)))
  have hocc : ∀ i, 0 < i → i ≤ Nat.find hex →
      ∃ page, file.pages[i]? = some page ∧ page.Occupied := by
    intro i hi hle
    obtain ⟨i, rfl⟩ := Nat.exists_eq_succ_of_ne_zero hi.ne'
    have hlt : i + 1 < file.pages.length := (hle.trans hlast).trans_lt (lastPage_lt hne)
    have hpage := List.getElem?_eq_getElem hlt
    refine ⟨_, hpage, by_contra fun hempty => Nat.find_min hex hle ?_⟩
    exact .inr (.inr ⟨_, hpage, hempty⟩)
  by_cases hfar : Nat.find hex < file.lastPage ∧ Nat.find hex + 1 = 2 ^ 19
  · refine .inr ((scan_of_stop hne hlast (by omega) hocc (gives_far hfar.1 hfar.2)).trans rfl)
  · refine .inl ⟨Nat.find hex, hlast, by omega, hocc, fun hlt => ?_⟩
    obtain heq | heq | hempty := Nat.find_spec hex
    · omega
    · exact absurd ⟨hlt, heq⟩ hfar
    · exact ⟨by omega, hempty⟩

theorem scan_nil (hnil : file.pages = []) : file.scan = .error (.thrown .couldNotReadPage) := by
  have hzero : file.file.length / pageSize = 0 := by rw [← file.pages_length, hnil]; rfl
  have hshort : ¬ (bytesAt file.file 0).length = pageSize := by
    rw [bytesAt, List.length_take, List.length_drop]
    simp only [pageSize] at hzero ⊢
    omega
  have hread : file.readPage 0 = .error .couldNotReadPage := by
    have hpos : wrap32 (pageSize * 0) = 0 := by decide
    rw [readPage, hpos]
    simp only [lt_irrefl, if_false, Int.toNat_zero, if_neg hshort]
  change (HeapFileIterator.rewind file).bind _ = _
  rw [HeapFileIterator.rewind, HeapFileIterator.nextPage, hread]
  rfl

/-! ### The whole file -/

/-- The first pages have all tuples when the others are empty. -/
theorem flatMap_take_eq_iff (n : ℕ) :
    (file.pages.take n).flatMap HeapPage.usedTuples = file.tuples ↔
      ∀ i page, n ≤ i → file.pages[i]? = some page → ¬ page.Occupied := by
  have hsplit : file.tuples = (file.pages.take n).flatMap HeapPage.usedTuples ++
      (file.pages.drop n).flatMap HeapPage.usedTuples := by
    rw [← List.flatMap_append, List.take_append_drop]
    rfl
  rw [hsplit, List.self_eq_append_right, List.flatMap_eq_nil_iff]
  constructor
  · intro h i page hle hpage hocc
    refine HeapPage.usedTuples_ne_nil_iff.2 hocc (h page ?_)
    refine List.mem_iff_getElem?.2 ⟨i - n, ?_⟩
    rw [List.getElem?_drop, Nat.add_sub_cancel' hle, hpage]
  · intro h page hmem
    obtain ⟨i, hi⟩ := List.mem_iff_getElem?.1 hmem
    rw [List.getElem?_drop] at hi
    exact not_not.1 (mt HeapPage.usedTuples_ne_nil_iff.1 (h _ page (Nat.le_add_right n i) hi))

/-- A scan gives the tuples of all pages exactly when no occupied page comes after an empty one
that is not page 0, and there are not too many pages. -/
theorem scan_eq_tuples_iff (file : HeapFile decode) :
    file.scan = .ok file.tuples ↔ file.ScannedWhole := by
  by_cases hnil : file.pages = []
  · rw [scan_nil hnil]
    exact iff_of_false (fun h => nomatch h) fun h => h.1 hnil
  constructor
  · intro hscan
    obtain ⟨k, hstop⟩ | herror := exists_stop hnil
    · rw [hstop.scan_eq hnil, Except.ok.injEq, flatMap_take_eq_iff] at hscan
      have hseek : min (k + 1) file.lastPage < 2 ^ 19 := by
        obtain heq | hlt := hstop.le_last.eq_or_lt
        · exact (min_le_right _ _).trans_lt (heq ▸ hstop.seeks)
        · exact (min_le_left _ _).trans_lt (hstop.stops hlt).1
      refine ⟨hnil, k, hstop.le_last, hseek, fun i page hi hpage => ⟨fun hocc => ?_, fun hle => ?_⟩⟩
      · exact not_lt.1 fun hlt => hscan i page hlt hpage hocc
      · obtain ⟨page', hpage', hocc⟩ := hstop.occupied i hi hle
        exact Option.some.inj (hpage.symm.trans hpage') ▸ hocc
    · rw [herror] at hscan
      cases hscan
  · rintro ⟨hne, k, hle, hseek, hocc⟩
    have hlen := lastPage_lt hne
    have hstop : file.StopsAt k := by
      refine ⟨hle, by omega, fun i hi hik => ?_, fun hlt => ⟨by omega, ?_⟩⟩
      · have hpage := List.getElem?_eq_getElem (show i < file.pages.length by omega)
        exact ⟨_, hpage, (hocc i _ hi hpage).2 hik⟩
      · have hpage := List.getElem?_eq_getElem (show k + 1 < file.pages.length by omega)
        exact ⟨_, hpage, fun h => Nat.not_succ_le_self k ((hocc _ _ (by omega) hpage).1 h)⟩
    rw [hstop.scan_eq hne, (flatMap_take_eq_iff (k + 1)).2 fun i page hlt hpage h => ?_]
    have := (hocc i page (by omega) hpage).1 h
    omega

/-- Below 2 GiB only the pattern of the pages counts. -/
theorem scannedWhole_iff (hsmall : file.pages.length ≤ 2 ^ 19) :
    file.ScannedWhole ↔ file.pages ≠ [] ∧ ∀ i j page page', 0 < i → i < j →
      file.pages[i]? = some page → file.pages[j]? = some page' → page'.Occupied →
        page.Occupied := by
  classical
  refine and_congr_right fun hne => ⟨?_, fun h => ?_⟩
  · rintro ⟨k, -, -, hocc⟩ i j page page' hi hij hpage hpage' hocc'
    have hjk := (hocc j page' (by omega) hpage').1 hocc'
    exact (hocc i page hi hpage).2 (by omega)
  · have hlast : file.lastPage + 1 = file.pages.length := by
      have hpos := List.length_pos_iff.2 hne
      have hnum : file.numPages = file.pages.length := by
        rw [numPages, ← file.pages_length, wrap32_eq (by omega) (by omega)]
      rw [lastPage, hnum, wrap32_eq (by omega) (by omega)]
      omega
    let Occ (i : ℕ) : Prop := ∃ page, file.pages[i]? = some page ∧ page.Occupied
    have hle : Nat.findGreatest Occ file.lastPage ≤ file.lastPage := Nat.findGreatest_le _
    refine ⟨Nat.findGreatest Occ file.lastPage, hle, by omega, fun i page hi hpage => ?_⟩
    have hlt := (List.getElem?_eq_some_iff.1 hpage).1
    constructor
    · intro hocc
      exact Nat.le_findGreatest (by omega) ⟨page, hpage, hocc⟩
    · intro hik
      obtain ⟨page', hpage', hocc'⟩ : Occ (Nat.findGreatest Occ file.lastPage) :=
        Nat.findGreatest_of_ne_zero rfl (by omega)
      obtain heq | hlt := hik.eq_or_lt
      · rw [← heq, hpage] at hpage'
        exact Option.some.inj hpage' ▸ hocc'
      · exact h i _ page page' hi hlt hpage hpage' hocc'

/-- Two pages of zeros, which are empty, and a page with its only slot in use. -/
def gapFile : List UInt8 := List.replicate (2 * pageSize) 0 ++ 1 :: List.replicate (pageSize - 1) 0

/-- Its page `i`. -/
def gapPage (i : ℕ) : Except PageError HeapPage :=
  HeapPage.new HeapPage.decodeLatin1 ⟨0, i⟩ HeapPage.wideDesc (bytesAt gapFile (pageSize * i))

theorem length_gapFile : gapFile.length = 3 * pageSize := by
  rw [gapFile, List.length_append, List.length_cons, List.length_replicate, List.length_replicate]
  rfl

theorem gapPage_usedTuples : ∃ p₀ p₁ p₂, gapPage 0 = .ok p₀ ∧ gapPage 1 = .ok p₁ ∧
    gapPage 2 = .ok p₂ ∧ p₀.usedTuples = [] ∧ p₁.usedTuples = [] ∧ p₂.usedTuples.length = 1 := by
  have hrun : ((gapPage 0).bind fun p₀ => (gapPage 1).bind fun p₁ => (gapPage 2).map fun p₂ =>
      [p₀, p₁, p₂].map fun page => page.usedTuples.length).toOption = some [0, 0, 1] := by
    decide +kernel
  cases h₀ : gapPage 0 with
  | error e => simp [h₀, Except.bind, Except.toOption] at hrun
  | ok p₀ =>
    cases h₁ : gapPage 1 with
    | error e => simp [h₀, h₁, Except.bind, Except.toOption] at hrun
    | ok p₁ =>
      cases h₂ : gapPage 2 with
      | error e => simp [h₀, h₁, h₂, Except.bind, Except.map, Except.toOption] at hrun
      | ok p₂ =>
        simp only [h₀, h₁, h₂, Except.bind, Except.map, Except.toOption, List.map_cons,
          List.map_nil, Option.some.injEq, List.cons.injEq, and_true] at hrun
        obtain ⟨hused₀, hused₁, hused₂⟩ := hrun
        exact ⟨p₀, p₁, p₂, rfl, rfl, rfl, List.eq_nil_of_length_eq_zero hused₀,
          List.eq_nil_of_length_eq_zero hused₁, hused₂⟩

/-- The scan ends before the one tuple of the file. -/
theorem scan_gapFile : ∃ file : HeapFile HeapPage.decodeLatin1, file.file = gapFile ∧
    file.scan = .ok [] ∧ file.tuples.length = 1 := by
  obtain ⟨p₀, p₁, p₂, h₀, h₁, h₂, hused₀, hused₁, hused₂⟩ := gapPage_usedTuples
  let file : HeapFile HeapPage.decodeLatin1 :=
    { id := 0
      td := HeapPage.wideDesc
      file := gapFile
      pages := [p₀, p₁, p₂]
      pages_length := by
        rw [length_gapFile, Nat.mul_div_cancel 3 (by decide)]
        rfl
      pages_new := by
        intro i page hpage
        match i, hpage with
        | 0, rfl => exact h₀
        | 1, rfl => exact h₁
        | 2, rfl => exact h₂ }
  have hempty : ¬ p₁.Occupied := mt HeapPage.usedTuples_ne_nil_iff.2 (not_not.2 hused₁)
  have hstop : file.StopsAt 0 := by
    refine ⟨Nat.zero_le _, by norm_num, fun i hi hle => absurd hi (by omega), fun _ => ?_⟩
    exact ⟨by norm_num, p₁, rfl, hempty⟩
  refine ⟨file, rfl, ?_, ?_⟩
  · rw [hstop.scan_eq (List.cons_ne_nil _ _)]
    change Except.ok (p₀.usedTuples ++ []) = _
    rw [List.append_nil, hused₀]
  · change (p₀.usedTuples ++ (p₁.usedTuples ++ (p₂.usedTuples ++ []))).length = 1
    rw [hused₀, hused₁, List.nil_append, List.nil_append, List.append_nil, hused₂]

end HeapFile

end Courses.SimpleDb
