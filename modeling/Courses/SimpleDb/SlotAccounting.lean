import Courses.SimpleDb.PageRoundTrip

/-!
# How many slots are free

The header of a page has whole bytes, the last of which may have bits beyond the last
slot. `getNumEmptySlots` counts these bits with the others and nothing ever sets them, so
that a full page still has empty slots for `addTuple`, which then finds none.
-/
namespace Courses.SimpleDb

open Courses.Lib

/-- The first `n` bits that are clear. -/
def countClear (header : List UInt8) (n : ℕ) : ℕ :=
  (List.range n).countP fun i => !slotBit header i

/-- The exceptions that are a `DbException`. -/
def PageError.isDbException : PageError → Bool
  | .tupleDescMismatch | .pageIsFull | .pageMismatch | .slotAlreadyEmpty _ => true
  | .arrayIndexOutOfBounds | .nullPointer | .negativeArraySize | .endOfData => false

namespace HeapPage

/-- The slots of the page whose bit is clear. -/
def emptySlots (page : HeapPage) : ℕ := countClear page.header page.tuples.length

/-- The first of them. -/
structure IsFirstEmpty (page : HeapPage) (i : ℕ) : Prop where
  lt : i < page.tuples.length
  clear : slotBit page.header i = false
  before : ∀ j < i, slotBit page.header j = true

/-- A tuple put into one slot, and everything else as it was. -/
structure Fills (page : HeapPage) (i : ℕ) (t : Tuple) (page' : HeapPage) : Prop where
  pid : page'.pid = page.pid
  td : page'.td = page.td
  tuples : page'.tuples = page.tuples.set i (some (t.setRecordId ⟨page.pid, i⟩))
  bits : ∀ j, slotBit page'.header j = if j = i then true else slotBit page.header j

/-- A tuple of the page's schema goes to the first empty slot if there is one; otherwise there
is a `DbException`. -/
def AddsRight (page : HeapPage) (t : Tuple) : Prop :=
  if 0 < page.emptySlots then
    ∃ i page', page.IsFirstEmpty i ∧ page.addTuple t = .ok page' ∧ page.Fills i t page'
  else
    ∃ e, page.addTuple t = .error e ∧ e.isDbException = true

/-- A record of a slot is deleted if the slot is in use; and whatever record is deleted, its slot
is the only one that changes. -/
structure DeletesRight (page : HeapPage) (t : Tuple) : Prop where
  used : ∀ i < page.tuples.length, t.rid = some ⟨page.pid, i⟩ →
    ((∃ page', page.deleteTuple t = .ok page') ↔ slotBit page.header i = true)
  emptied : ∀ page', page.deleteTuple t = .ok page' →
    page'.pid = page.pid ∧ page'.td = page.td ∧ page'.tuples = page.tuples ∧
      ∀ i < page.tuples.length, slotBit page'.header i =
        (slotBit page.header i && decide (t.rid ≠ some ⟨page.pid, i⟩))

/-- The number of empty slots is right, and `addTuple` and `deleteTuple` keep to it. -/
structure SlotsRight (page : HeapPage) : Prop where
  count : getNumEmptySlots page.header = page.emptySlots
  adds : ∀ t, t.td.equals page.td = true → page.AddsRight t
  deletes : ∀ t, page.DeletesRight t

/-- No bit beyond the last slot is clear. -/
def PaddingSet (page : HeapPage) : Prop :=
  ∀ i, page.tuples.length ≤ i → i < 8 * page.header.length → slotBit page.header i = true

/-- No bit beyond the last slot is set. -/
def PaddingClear (page : HeapPage) : Prop :=
  ∀ i, page.tuples.length ≤ i → slotBit page.header i = false

end HeapPage

/-! ### Counting bits -/

theorem slotBit_cons (b : UInt8) (header : List UInt8) (i : ℕ) :
    slotBit (b :: header) (8 + i) = slotBit header i := by
  have hdiv : (8 + i) / 8 = i / 8 + 1 := by omega
  have hmod : (8 + i) % 8 = i % 8 := by omega
  rw [slotBit, slotBit, hdiv, hmod, List.getD_cons_succ]

theorem countClear_add (header : List UInt8) (m n : ℕ) :
    countClear header (m + n) =
      countClear header m + (List.range n).countP fun i => !slotBit header (m + i) := by
  rw [countClear, List.range_add, List.countP_append, List.countP_map]
  rfl

theorem countClear_pos_iff {header : List UInt8} {n : ℕ} :
    0 < countClear header n ↔ ∃ i < n, slotBit header i = false := by
  rw [countClear, List.countP_pos_iff]
  simp

/-- The two loops of `getNumEmptySlots` go over all bits of the header. -/
theorem getNumEmptySlots_eq (header : List UInt8) :
    getNumEmptySlots header = countClear header (8 * header.length) := by
  induction header with
  | nil => rfl
  | cons b header ih =>
    have hbyte : (List.range 8).countP (fun j => !bitOf b j) = countClear (b :: header) 8 := by
      apply List.countP_congr
      intro i hi
      have hlt : i < 8 := List.mem_range.1 hi
      rw [bitOf_eq b hlt, slotBit, Nat.div_eq_of_lt hlt, Nat.mod_eq_of_lt hlt]
      rfl
    have hsum : getNumEmptySlots (b :: header) =
        (List.range 8).countP (fun j => !bitOf b j) + getNumEmptySlots header := rfl
    rw [hsum, ih, hbyte, List.length_cons, Nat.mul_succ, Nat.add_comm _ 8, countClear_add]
    simp only [slotBit_cons]
    rfl

namespace HeapPage

variable {page : HeapPage}

theorem slots_le_header (page : HeapPage) : page.tuples.length ≤ 8 * page.header.length := by
  have := page.headerBytes
  omega

/-- The count is right when nothing but slots is counted. -/
theorem getNumEmptySlots_eq_iff :
    getNumEmptySlots page.header = page.emptySlots ↔ page.PaddingSet := by
  obtain ⟨n, hn⟩ := Nat.exists_eq_add_of_le page.slots_le_header
  rw [getNumEmptySlots_eq, hn, countClear_add, emptySlots, Nat.add_eq_left, List.countP_eq_zero]
  simp only [List.mem_range, PaddingSet, hn]
  constructor
  · intro h i hle hlt
    have hbit := h (i - page.tuples.length) (by omega)
    rw [Nat.add_sub_cancel' hle] at hbit
    simpa using hbit
  · intro h i hi
    simp [h (page.tuples.length + i) (by omega) (by omega)]

/-! ### One call -/

theorem getSlot_eq {i : ℕ} (hi : i < page.tuples.length) :
    getSlot page.header i = .ok (slotBit page.header i) := getSlot_natCast (page.slot_lt hi)

theorem getFirstEmptySlot_of_pos (h : 0 < page.emptySlots) :
    ∃ i : ℕ, page.getFirstEmptySlot = i ∧ page.IsFirstEmpty i := by
  obtain ⟨k, hk, hclear⟩ := countClear_pos_iff.1 h
  unfold getFirstEmptySlot
  split
  · rename_i i hi
    obtain ⟨hfree, hmem, hbefore⟩ := List.find?_range_eq_some.1 hi
    have hlt : i < page.tuples.length := List.mem_range.1 hmem
    refine ⟨i, rfl, hlt, ?_, fun j hj => ?_⟩
    · rw [getSlot_eq hlt] at hfree
      cases hbit : slotBit page.header i with
      | false => rfl
      | true => simp [hbit] at hfree
    · have hused := hbefore j hj
      rw [getSlot_eq (hj.trans hlt)] at hused
      cases hbit : slotBit page.header j with
      | false => simp [hbit] at hused
      | true => rfl
  · rename_i hnone
    have hused := List.find?_range_eq_none.1 hnone k hk
    rw [getSlot_eq hk, hclear] at hused
    cases hused

/-- With room on the page the call goes through to the first empty slot. -/
theorem addTuple_of_pos {t : Tuple} {i : ℕ} (ht : t.td.equals page.td = true)
    (hcount : getNumEmptySlots page.header ≠ 0) (hfirst : page.getFirstEmptySlot = i)
    (hlt : i < page.tuples.length) :
    ∃ page', page.addTuple t = .ok page' ∧ page.Fills i t page' := by
  obtain ⟨header', hset⟩ := setSlot_natCast (page.slot_lt hlt) true
  have htd : ¬ t.td.equals page.td = false := by simp [ht]
  have hneg : ¬ page.getFirstEmptySlot < 0 := by omega
  unfold addTuple
  dsimp only
  rw [if_neg htd, if_neg hcount, if_neg hneg]
  split
  · rename_i hs
    rw [hfirst, hset] at hs
    cases hs
  · rename_i header hs
    rw [hfirst, hset] at hs
    cases hs
    refine ⟨_, rfl, rfl, rfl, ?_, fun j => ?_⟩
    · simp only [hfirst, Int.toNat_natCast]
    · simpa only [Nat.cast_inj] using setSlot_bits hset j

theorem addsRight (hpadding : page.PaddingSet) {t : Tuple} (ht : t.td.equals page.td = true) :
    page.AddsRight t := by
  have hcount := getNumEmptySlots_eq_iff.2 hpadding
  unfold AddsRight
  split
  · rename_i hpos
    obtain ⟨i, hfirst, hempty⟩ := getFirstEmptySlot_of_pos hpos
    obtain ⟨page', hadd, hfills⟩ := addTuple_of_pos ht (by omega) hfirst hempty.lt
    exact ⟨i, page', hempty, hadd, hfills⟩
  · rename_i hzero
    have hfull : getNumEmptySlots page.header = 0 := by omega
    refine ⟨.pageIsFull, ?_, rfl⟩
    rw [addTuple, if_neg (by simp [ht]), if_pos hfull]

/-- A record that is deleted is one of the page. -/
theorem deleteTuple_pid {page' : HeapPage} {t : Tuple} {rid : RecordId}
    (h : page.deleteTuple t = .ok page') (hrid : t.rid = some rid) : rid.pid = page.pid := by
  unfold deleteTuple at h
  rw [hrid] at h
  dsimp only at h
  split_ifs at h with hpid
  exact (not_not.1 hpid).symm

theorem deletesRight (page : HeapPage) (t : Tuple) : page.DeletesRight t := by
  constructor
  · intro i hi hrid
    obtain ⟨header', hset⟩ := setSlot_natCast (page.slot_lt hi) false
    unfold deleteTuple
    rw [hrid]
    dsimp only
    rw [if_neg (not_not.2 rfl), getSlot_eq hi]
    cases hbit : slotBit page.header i with
    | false => simp
    | true =>
      refine iff_of_true ?_ rfl
      dsimp only
      split
      · rename_i hs
        rw [hset] at hs
        cases hs
      · exact ⟨_, rfl⟩
  · intro page' h
    obtain ⟨rid, hrid, hpid, htd, htuples, hbits⟩ := deleteTuple_ok h
    refine ⟨hpid, htd, htuples, fun i _ => ?_⟩
    have hslot : t.rid = some ⟨page.pid, i⟩ ↔ (i : ℤ) = rid.tupleno := by
      rw [hrid, Option.some.injEq, ← deleteTuple_pid h hrid]
      constructor
      · intro heq
        rw [heq]
      · intro heq
        rw [heq]
    rw [hbits]
    by_cases hi : (i : ℤ) = rid.tupleno
    · simp [hi, hslot.2 hi]
    · simp [hi, mt hslot.1 hi]

theorem slotsRight_iff : page.SlotsRight ↔ page.PaddingSet := by
  constructor
  · intro h
    exact getNumEmptySlots_eq_iff.1 h.count
  · intro h
    exact ⟨getNumEmptySlots_eq_iff.2 h, fun t ht => addsRight h ht, deletesRight page⟩

/-! ### Runs -/

/-- A step sets bits of slots only. -/
theorem paddingClear_step {page' : HeapPage} {op : PageOp} (h : page.PaddingClear)
    (hs : page.step op = some page') : page'.td = page.td ∧ page'.PaddingClear := by
  obtain ⟨t, -, hadd⟩ | ⟨t, -, hdelete⟩ := step_cases hs
  · obtain ⟨-, i, hi, -, -, htd, htuples, hbits⟩ := addTuple_ok hadd
    refine ⟨htd, fun j hj => ?_⟩
    rw [htuples, List.length_set] at hj
    rw [hbits, if_neg (by omega)]
    exact h j hj
  · obtain ⟨rid, -, -, htd, htuples, hbits⟩ := deleteTuple_ok hdelete
    refine ⟨htd, fun j hj => ?_⟩
    rw [htuples] at hj
    rw [hbits]
    split
    · rfl
    · exact h j hj

theorem paddingClear_empty {decode : List UInt8 → List UInt16} {pid : HeapPageId} {td : TupleDesc}
    (h : HeapPage.new decode pid td createEmptyPageData = .ok page) : page.PaddingClear := by
  have hz : ∀ b ∈ page.header, b = 0 := by
    rw [(new_ok h).2.2]
    intro b hb
    exact List.eq_of_mem_replicate (List.mem_of_mem_take hb)
  intro i _
  exact slotBit_zero hz i

/-- Bits that are both set and clear there are none: the slots fill whole bytes. -/
theorem paddingSet_iff_of_clear (h : page.PaddingClear) :
    page.PaddingSet ↔ getNumTuples page.td % 8 = 0 := by
  have hbytes := page.headerBytes
  rw [page.numSlots]
  constructor
  · intro hset
    by_contra hmod
    have hbit := hset page.tuples.length le_rfl (by omega)
    rw [h _ le_rfl] at hbit
    cases hbit
  · intro hmod i hle hlt
    omega

/-- In every page reached, the slots are accounted for exactly when no bit beyond the last slot
is clear; and where these bits are clear in the first page, as in an empty one, exactly when
the number of slots is a multiple of eight. -/
theorem slotsRight_iff_of_reachable {first : HeapPage} (h : Reachable step first page) :
    (page.SlotsRight ↔ page.PaddingSet) ∧
      (first.PaddingClear → (page.SlotsRight ↔ getNumTuples first.td % 8 = 0)) := by
  refine ⟨slotsRight_iff, fun hclear => ?_⟩
  obtain ⟨htd, hpage⟩ := h.invariant (I := fun p => p.td = first.td ∧ p.PaddingClear)
    ⟨rfl, hclear⟩ fun p op p' hp _ hs => by
      obtain ⟨htd, hclear'⟩ := paddingClear_step hp.2 hs
      exact ⟨htd.trans hp.1, hclear'⟩
  rw [slotsRight_iff, paddingSet_iff_of_clear hpage, htd]

/-- An empty page for rows of one number, of which it holds 992. -/
theorem slotsRight_iff_of_reachable_empty :
    ∃ empty, HeapPage.new decodeLatin1 ⟨0, 0⟩ ⟨[.intType], by simp⟩ createEmptyPageData =
        .ok empty ∧ Reachable step empty empty ∧ (empty.SlotsRight ↔ empty.PaddingSet) ∧
      (empty.PaddingClear → (empty.SlotsRight ↔ getNumTuples empty.td % 8 = 0)) := by
  have hrun : (HeapPage.new decodeLatin1 ⟨0, 0⟩ ⟨[.intType], by simp⟩
      createEmptyPageData).isOk = true := by decide +kernel
  cases hnew : HeapPage.new decodeLatin1 ⟨0, 0⟩ ⟨[.intType], by simp⟩ createEmptyPageData with
  | error e => simp [hnew, Except.isOk, Except.toBool] at hrun
  | ok empty =>
    have hreach : Reachable step empty empty := .refl
    exact ⟨empty, rfl, hreach, slotsRight_iff_of_reachable hreach⟩

/-- The only slot of a page for 31 strings is in use, and the next call is led beyond it. -/
theorem addTuple_full_page :
    ∃ empty page, HeapPage.new decodeLatin1 ⟨0, 0⟩ wideDesc createEmptyPageData = .ok empty ∧
      Reachable step empty page ∧ getNumEmptySlots page.header = 7 ∧ page.emptySlots = 0 ∧
      page.addTuple (Tuple.new wideDesc) = .error .arrayIndexOutOfBounds ∧ ¬ page.SlotsRight := by
  have hrun : ((HeapPage.new decodeLatin1 ⟨0, 0⟩ wideDesc createEmptyPageData).bind fun empty =>
      (empty.addTuple (Tuple.new wideDesc)).map fun page =>
        (getNumEmptySlots page.header, page.emptySlots,
          match page.addTuple (Tuple.new wideDesc) with
          | .ok _ => none
          | .error e => some e)).toOption = some (7, 0, some .arrayIndexOutOfBounds) := by
    decide +kernel
  cases h₀ : HeapPage.new decodeLatin1 ⟨0, 0⟩ wideDesc createEmptyPageData with
  | error e => simp [h₀, Except.bind, Except.toOption] at hrun
  | ok empty =>
    cases h₁ : empty.addTuple (Tuple.new wideDesc) with
    | error e => simp [h₀, h₁, Except.bind, Except.map, Except.toOption] at hrun
    | ok page =>
      simp only [h₀, h₁, Except.bind, Except.map, Except.toOption, Option.some.injEq,
        Prod.mk.injEq] at hrun
      obtain ⟨hcount, hempty, hnext⟩ := hrun
      have hstep : step empty (.addTuple (Tuple.new wideDesc)) = some page := by
        simp [step, h₁, Except.toOption]
      have hthrows : page.addTuple (Tuple.new wideDesc) = .error .arrayIndexOutOfBounds := by
        split at hnext
        · cases hnext
        · rename_i hthrown
          rw [hthrown, Option.some.inj hnext]
      refine ⟨empty, page, rfl, Reaches.refl.tail trivial hstep, hcount, hempty, hthrows, ?_⟩
      intro hright
      have hsame := hright.count
      omega

end HeapPage

end Courses.SimpleDb
