import Mathlib.Tactic

/-!
# A growable vector

`vector.c` of exercise 5. An element is a pointer or `NULL`. The cells of a new allocation are not
initialised, and an access outside an array, or to a cell that is not initialised, has no result;
allocations succeed.
-/
namespace Courses.Exercises.Vector

variable {E : Type}

/-- `element_t`, where `none` is `NULL`. -/
abbrev Element (E : Type) := Option E

/-- An allocated array. -/
abbrev Cells (E : Type) := List (Option (Element E))

/-- `vector_t`, when it is not `NULL`. -/
structure Vec (E : Type) where
  length : ℕ
  array : Cells E

/-- `malloc(len * sizeof(element_t))`: the product of the two 64-bit values wraps around. -/
def mallocElements (len : ℕ) : Cells E := List.replicate (len * 8 % 2 ^ 64 / 8) none

def store (array : Cells E) (i : ℕ) (e : Element E) : Option (Cells E) :=
  if i < array.length then some (array.set i (some e)) else none

def load (array : Cells E) (i : ℕ) : Option (Element E) := array[i]?.bind id

/-- The loops that fill an array: `array[i] = f i` for `start ≤ i < start + count`. -/
def fill (f : ℕ → Option (Element E)) (start count : ℕ) (array : Cells E) : Option (Cells E) :=
  (List.range' start count).foldlM (fun array i => do store array i (← f i)) array

def resizeArray (array : Cells E) (oldLen newLen : ℕ) : Option (Cells E) := do
  let newArray := mallocElements newLen
  let newArray ← fill (load array) 0 oldLen newArray
  fill (fun _ => some none) oldLen (newLen - oldLen) newArray

def vectorCreate (n : UInt64) : Option (Option (Vec E)) :=
  if n = 0 then some none
  else do
    let array ← fill (fun _ => some none) 0 n.toNat (mallocElements n.toNat)
    return some ⟨n.toNat, array⟩

/-- What `VectorSet` returns, the vector after it, and what it stores in `*prev` if it does. -/
def vectorSet (v : Option (Vec E)) (index : UInt32) (e : Element E) :
    Option (Bool × Option (Vec E) × Option (Element E)) :=
  match v with
  | none => some (false, none, none)
  | some v =>
    if index.toNat ≥ v.length then do
      let newLength := (index + 1).toNat
      let newArray ← resizeArray v.array v.length newLength
      let array ← store newArray index.toNat e
      return (true, some ⟨newLength, array⟩, none)
    else do
      let prev ← load v.array index.toNat
      let array ← store v.array index.toNat e
      return (true, some ⟨v.length, array⟩, some prev)

def vectorGet (v : Option (Vec E)) (index : ℕ) : Option (Element E) :=
  match v with
  | none => some none
  | some v => if index ≥ v.length then some none else load v.array index

def vectorLength (v : Option (Vec E)) : ℕ :=
  match v with
  | none => 2 ^ 64 - 1
  | some v => v.length

/-! ## Runs -/

inductive Call (E : Type)
  | set (index : UInt32) (e : Element E)
  | get (index : UInt32)
  | length

inductive Reply (E : Type)
  | set (done : Bool) (prev : Option (Element E))
  | get (e : Element E)
  | length (n : ℕ)

def step (v : Option (Vec E)) : Call E → Option (Reply E × Option (Vec E))
  | .set index e => do
    let (done, v', prev) ← vectorSet v index e
    return (.set done prev, v')
  | .get index => do return (.get (← vectorGet v index.toNat), v)
  | .length => some (.length (vectorLength v), v)

def run (v : Option (Vec E)) : List (Call E) → Option (List (Reply E))
  | [] => some []
  | call :: calls => do
    let (reply, v') ← step v call
    return reply :: (← run v' calls)

/-! ## What is asked of a vector -/

/-- The element last set at an index. -/
def lastSet (history : List (Call E)) (i : ℕ) : Element E :=
  history.foldl (fun last call =>
    match call with
    | .set index e => if index.toNat = i then e else last
    | _ => last) none

/-- The larger of `n` and one more than the largest index set. -/
def lengthAfter (n : ℕ) (history : List (Call E)) : ℕ :=
  history.foldl (fun len call =>
    match call with
    | .set index _ => max len (index.toNat + 1)
    | _ => len) n

def expected (n : ℕ) (history : List (Call E)) : Call E → Reply E
  | .set index _ => .set true
      (if index.toNat < lengthAfter n history then some (lastSet history index.toNat) else none)
  | .get index => .get (lastSet history index.toNat)
  | .length => .length (lengthAfter n history)

def expectedAll (n : ℕ) (history : List (Call E)) : List (Call E) → List (Reply E)
  | [] => []
  | call :: calls => expected n history call :: expectedAll n (history ++ [call]) calls

/-- No access leaves an array, and all replies are as expected. -/
def Meets (n : UInt64) (calls : List (Call E)) : Prop :=
  (vectorCreate n).bind (fun v => run v calls) = some (expectedAll n.toNat [] calls)

section Fill

variable {array : Cells E} {f : ℕ → Option (Element E)} {g : ℕ → Element E}

theorem fill_ok (count : ℕ) : ∀ (start : ℕ) (array : Cells E), start + count ≤ array.length →
    (∀ i, start ≤ i → i < start + count → f i = some (g i)) →
    ∃ array', fill f start count array = some array' ∧ array'.length = array.length ∧
      ∀ i, array'[i]? = if start ≤ i ∧ i < start + count then some (some (g i)) else array[i]? := by
  induction count with
  | zero =>
    intro start array _ _
    refine ⟨array, rfl, rfl, ?_⟩
    intro i
    rw [if_neg (by omega)]
  | succ count ih =>
    intro start array hle hf
    have hstart : start < array.length := by omega
    obtain ⟨array', hrun, hlength, hcells⟩ := ih (start + 1) (array.set start (some (g start)))
      (by rw [List.length_set]; omega) (fun i hi hi' => hf i (by omega) (by omega))
    refine ⟨array', ?_, by rw [hlength, List.length_set], ?_⟩
    · simp only [fill, List.range'_succ, List.foldlM_cons, hf start le_rfl (by omega), store,
        if_pos hstart]
      exact hrun
    · intro i
      rw [hcells]
      obtain rfl | hne := eq_or_ne i start
      · rw [if_neg (by omega), if_pos (by omega), List.getElem?_set_self hstart]
      · rw [List.getElem?_set_ne hne.symm]
        by_cases hin : start ≤ i ∧ i < start + (count + 1)
        · rw [if_pos (by omega), if_pos hin]
        · rw [if_neg (by omega), if_neg hin]

/-- A loop that goes beyond the array has no result. -/
theorem fill_error (count : ℕ) : ∀ (start : ℕ) (array : Cells E), 0 < count →
    array.length < start + count → fill f start count array = none := by
  induction count with
  | zero =>
    intro start array hpos
    omega
  | succ count ih =>
    intro start array _ hlt
    simp only [fill, List.range'_succ, List.foldlM_cons]
    cases f start with
    | none => rfl
    | some e =>
      by_cases hstart : start < array.length
      · simp only [store, if_pos hstart]
        exact ih (start + 1) (array.set start (some e)) (by omega)
          (by rw [List.length_set]; omega)
      · simp only [store, if_neg hstart]
        rfl

end Fill

theorem length_mallocElements (len : ℕ) :
    (mallocElements len : Cells E).length = len * 8 % 2 ^ 64 / 8 := by
  rw [mallocElements, List.length_replicate]

theorem length_mallocElements_of_lt {len : ℕ} (h : len < 2 ^ 61) :
    (mallocElements len : Cells E).length = len := by
  rw [length_mallocElements]
  omega

theorem length_mallocElements_lt {len : ℕ} (h : 2 ^ 61 ≤ len) (h' : len < 2 ^ 64) :
    (mallocElements len : Cells E).length < len := by
  rw [length_mallocElements]
  omega

section Runs

variable {n : ℕ} {history : List (Call E)} {v : Vec E}

/-- The array of a vector holds what was last set, and nothing was set beyond it. -/
structure Holds (n : ℕ) (history : List (Call E)) (v : Vec E) : Prop where
  length : v.length = lengthAfter n history
  cells : v.array.length = v.length
  element : ∀ i, i < v.length → v.array[i]? = some (some (lastSet history i))
  beyond : ∀ i, v.length ≤ i → lastSet history i = none

theorem lastSet_append (call : Call E) (i : ℕ) :
    lastSet (history ++ [call]) i = (match call with
      | .set index e => if index.toNat = i then e else lastSet history i
      | _ => lastSet history i) := by
  simp only [lastSet, List.foldl_append, List.foldl_cons, List.foldl_nil]

theorem lengthAfter_append (call : Call E) :
    lengthAfter n (history ++ [call]) = (match call with
      | .set index _ => max (lengthAfter n history) (index.toNat + 1)
      | _ => lengthAfter n history) := by
  simp only [lengthAfter, List.foldl_append, List.foldl_cons, List.foldl_nil]

theorem vectorCreate_ok {n : UInt64} (hpos : 0 < n.toNat) (hlt : n.toNat < 2 ^ 61) :
    ∃ v : Vec E, vectorCreate n = some (some v) ∧ Holds n.toNat [] v := by
  have hne : n ≠ 0 := by
    rintro rfl
    simp at hpos
  obtain ⟨array, hfill, hlength, hcells⟩ := @fill_ok E (fun _ => some none) (fun _ => none)
    n.toNat 0 (mallocElements n.toNat) (by rw [length_mallocElements_of_lt hlt]; omega)
    (fun _ _ _ => rfl)
  refine ⟨⟨n.toNat, array⟩, ?_, ?_⟩
  · simp only [vectorCreate, if_neg hne, hfill, Option.bind_eq_bind, Option.bind_some]
    rfl
  · constructor
    · rfl
    · rw [hlength, length_mallocElements_of_lt hlt]
    · intro i hi
      rw [hcells, if_pos ⟨Nat.zero_le i, by simpa using hi⟩]
      rfl
    · intro i _
      rfl

theorem vectorCreate_error {n : UInt64} (hle : 2 ^ 61 ≤ n.toNat) :
    (vectorCreate n : Option (Option (Vec E))) = none := by
  have hne : n ≠ 0 := by
    rintro rfl
    simp at hle
  have hfill : fill (fun _ => some none) 0 n.toNat (mallocElements n.toNat : Cells E) = none := by
    apply fill_error
    · omega
    · rw [Nat.zero_add]
      exact length_mallocElements_lt hle n.toNat_lt
  simp only [vectorCreate, if_neg hne, hfill, Option.bind_eq_bind, Option.bind_none]

theorem resizeArray_ok {newLen : ℕ} (h : Holds n history v) (hle : v.length ≤ newLen)
    (hlt : newLen < 2 ^ 61) :
    ∃ array, resizeArray v.array v.length newLen = some array ∧ array.length = newLen ∧
      ∀ i, i < newLen → array[i]? = some (some (lastSet history i)) := by
  have hload : ∀ i, i < v.length → load v.array i = some (lastSet history i) := by
    intro i hi
    rw [load, h.element i hi]
    rfl
  obtain ⟨array, hfill, hlength, hcells⟩ := @fill_ok E (load v.array) (lastSet history) v.length 0
    (mallocElements newLen) (by rw [length_mallocElements_of_lt hlt]; omega)
    (fun i _ hi => hload i (by omega))
  obtain ⟨array', hfill', hlength', hcells'⟩ := @fill_ok E (fun _ => some none) (lastSet history)
    (newLen - v.length) v.length array
    (by rw [hlength, length_mallocElements_of_lt hlt]; omega)
    (fun i hi _ => by rw [h.beyond i hi])
  refine ⟨array', ?_, ?_, ?_⟩
  · simp only [resizeArray, hfill, Option.bind_eq_bind, Option.bind_some, hfill']
  · rw [hlength', hlength, length_mallocElements_of_lt hlt]
  · intro i hi
    rw [hcells', hcells]
    by_cases hold : i < v.length
    · rw [if_neg (by omega), if_pos (by omega)]
    · rw [if_pos (by omega)]

/-- The largest index makes the new length 0, and then the old elements do not fit. -/
theorem resizeArray_error (hpos : 0 < v.length) :
    resizeArray v.array v.length 0 = none := by
  have hfill : fill (load v.array) 0 v.length (mallocElements 0) = none := by
    apply fill_error
    · exact hpos
    · rw [length_mallocElements_of_lt (by omega)]
      omega
  simp only [resizeArray, hfill, Option.bind_eq_bind, Option.bind_none]

theorem toNat_succ {index : UInt32} (h : index.toNat ≠ 2 ^ 32 - 1) :
    (index + 1).toNat = index.toNat + 1 := by
  have hlt := index.toNat_lt
  rw [UInt32.toNat_add]
  simp
  omega

theorem store_ok {array : Cells E} {i : ℕ} (hi : i < array.length) (e : Element E) :
    store array i e = some (array.set i (some e)) := if_pos hi

theorem load_ok (h : Holds n history v) {i : ℕ} (hi : i < v.length) :
    load v.array i = some (lastSet history i) := by
  rw [load, h.element i hi]
  rfl

/-- A call that sets nothing. -/
theorem Holds.append (h : Holds n history v) {call : Call E}
    (hcall : ∀ index e, call ≠ .set index e) : Holds n (history ++ [call]) v := by
  have hlast : ∀ i, lastSet (history ++ [call]) i = lastSet history i := by
    intro i
    rw [lastSet_append]
    cases call with
    | set index e => exact absurd rfl (hcall index e)
    | get index => rfl
    | length => rfl
  have hlength : lengthAfter n (history ++ [call]) = lengthAfter n history := by
    rw [lengthAfter_append]
    cases call with
    | set index e => exact absurd rfl (hcall index e)
    | get index => rfl
    | length => rfl
  constructor
  · rw [hlength, h.length]
  · exact h.cells
  · intro i hi
    rw [hlast, h.element i hi]
  · intro i hi
    rw [hlast, h.beyond i hi]

/-- An element is stored in an array that holds the others. -/
theorem Holds.set {array : Cells E} {newLen : ℕ} (h : Holds n history v) (index : UInt32)
    (e : Element E) (hnew : newLen = max v.length (index.toNat + 1))
    (hlength : array.length = newLen)
    (hcells : ∀ i, i < newLen → array[i]? = some (some (lastSet history i))) :
    Holds n (history ++ [.set index e]) ⟨newLen, array.set index.toNat (some e)⟩ := by
  constructor
  · simp only [lengthAfter_append, hnew, h.length]
  · simp only [List.length_set, hlength]
  · intro i hi
    simp only [lastSet_append]
    by_cases hindex : index.toNat = i
    · rw [if_pos hindex, hindex, List.getElem?_set_self (by rw [hlength]; exact hi)]
    · rw [if_neg hindex, List.getElem?_set_ne hindex, hcells i hi]
  · intro i hi
    simp only at hi
    simp only [lastSet_append]
    rw [if_neg (by omega), h.beyond i (by omega)]

/-- A call that does not set the largest index beyond the vector. -/
theorem step_ok (h : Holds n history v) (call : Call E)
    (hcall : ∀ index e, call = .set index e → index.toNat < v.length ∨ index.toNat ≠ 2 ^ 32 - 1) :
    ∃ v', step (some v) call = some (expected n history call, some v') ∧
      Holds n (history ++ [call]) v' := by
  cases call with
  | length =>
    refine ⟨v, ?_, ?_⟩
    · simp only [step, vectorLength, expected, h.length]
    · apply h.append
      simp
  | get index =>
    refine ⟨v, ?_, ?_⟩
    · by_cases hindex : index.toNat ≥ v.length
      · simp only [step, vectorGet, if_pos hindex, expected, h.beyond _ hindex]
        rfl
      · simp only [step, vectorGet, if_neg hindex, expected, load_ok h (not_le.mp hindex)]
        rfl
    · apply h.append
      simp
  | set index e =>
    by_cases hindex : index.toNat ≥ v.length
    · have hne : index.toNat ≠ 2 ^ 32 - 1 := by
        cases hcall index e rfl with
        | inl hlt => omega
        | inr hne => exact hne
      have hlt := index.toNat_lt
      obtain ⟨array, hresize, hlength, hcells⟩ := @resizeArray_ok E n history v (index.toNat + 1) h
        (by omega) (by omega)
      refine ⟨⟨index.toNat + 1, array.set index.toNat (some e)⟩, ?_, ?_⟩
      · simp only [step, vectorSet, if_pos hindex, toNat_succ hne, hresize, Option.bind_eq_bind,
          Option.bind_some, store_ok (show index.toNat < array.length by omega) e, expected,
          ← h.length, if_neg (not_lt.mpr hindex)]
        rfl
      · exact h.set index e (by omega) hlength hcells
    · have hlt : index.toNat < v.length := not_le.mp hindex
      have harray : index.toNat < v.array.length := by
        rw [h.cells]
        exact hlt
      refine ⟨⟨v.length, v.array.set index.toNat (some e)⟩, ?_, ?_⟩
      · simp only [step, vectorSet, if_neg hindex, load_ok h hlt, Option.bind_eq_bind,
          Option.bind_some, store_ok harray e, expected, ← h.length, if_pos hlt]
        rfl
      · exact h.set index e (by omega) h.cells h.element

/-- A call that sets the largest index beyond the vector. -/
theorem step_error (hpos : 0 < v.length) (hlt : v.length < 2 ^ 32) {index : UInt32}
    (hindex : index.toNat = 2 ^ 32 - 1) (e : Element E) : step (some v) (.set index e) = none := by
  have hwrap : (index + 1).toNat = 0 := by
    rw [UInt32.toNat_add, hindex]
    rfl
  have hge : index.toNat ≥ v.length := by omega
  simp only [step, vectorSet, if_pos hge, hwrap, resizeArray_error hpos, Option.bind_eq_bind,
    Option.bind_none]

theorem lengthAfter_le (calls : List (Call E)) : ∀ n, n ≤ lengthAfter n calls := by
  induction calls with
  | nil =>
    intro n
    exact le_rfl
  | cons call calls ih =>
    intro n
    cases call with
    | set index e => exact le_trans (le_max_left n (index.toNat + 1)) (ih _)
    | get index => exact ih n
    | length => exact ih n

/-- A vector stays below the length 2^32 unless the largest index is set. -/
theorem lengthAfter_lt (calls : List (Call E)) : ∀ n, n < 2 ^ 32 →
    (∀ index e, Call.set index e ∈ calls → index.toNat ≠ 2 ^ 32 - 1) →
    lengthAfter n calls < 2 ^ 32 := by
  induction calls with
  | nil =>
    intro n hn _
    exact hn
  | cons call calls ih =>
    intro n hn hcalls
    have htail : ∀ index e, Call.set index e ∈ calls → index.toNat ≠ 2 ^ 32 - 1 := by
      intro index e hmem
      exact hcalls index e (List.mem_cons_of_mem call hmem)
    cases call with
    | set index e =>
      have hlt := index.toNat_lt
      have hne := hcalls index e List.mem_cons_self
      exact ih (max n (index.toNat + 1)) (by omega) htail
    | get index => exact ih n hn htail
    | length => exact ih n hn htail

/-- No call of the rest sets the largest index beyond the vector. -/
theorem run_ok (calls : List (Call E)) : ∀ (history : List (Call E)) (v : Vec E),
    Holds n history v →
    (2 ^ 32 ≤ n ∨ ∀ index e, Call.set index e ∈ calls → index.toNat ≠ 2 ^ 32 - 1) →
    run (some v) calls = some (expectedAll n history calls) := by
  induction calls with
  | nil =>
    intro history v _ _
    rfl
  | cons call calls ih =>
    intro history v h hcalls
    have hlength : n ≤ v.length := by
      rw [h.length]
      exact lengthAfter_le history n
    obtain ⟨v', hstep, h'⟩ := step_ok h call (by
      intro index e hcall
      cases hcalls with
      | inl hn =>
        have hlt := index.toNat_lt
        left
        omega
      | inr hcalls =>
        right
        apply hcalls index e
        rw [hcall]
        exact List.mem_cons_self)
    have hrest := ih (history ++ [call]) v' h' (by
      cases hcalls with
      | inl hn => exact Or.inl hn
      | inr hcalls =>
        right
        intro index e hmem
        exact hcalls index e (List.mem_cons_of_mem call hmem))
    simp only [run, hstep, Option.bind_eq_bind, Option.bind_some, hrest]
    rfl

/-- The first call that sets the largest index has no result. -/
theorem run_error (hpos : 0 < n) (calls : List (Call E)) :
    ∀ (history : List (Call E)) (v : Vec E), Holds n history v → v.length < 2 ^ 32 →
    (∃ index e, Call.set index e ∈ calls ∧ index.toNat = 2 ^ 32 - 1) →
    run (some v) calls = none := by
  induction calls with
  | nil =>
    intro history v _ _ hcalls
    obtain ⟨index, e, hmem, _⟩ := hcalls
    exact absurd hmem List.not_mem_nil
  | cons call calls ih =>
    intro history v h hlt hcalls
    have hlength : n ≤ v.length := by
      rw [h.length]
      exact lengthAfter_le history n
    by_cases hcall : ∃ index e, call = .set index e ∧ index.toNat = 2 ^ 32 - 1
    · obtain ⟨index, e, rfl, hindex⟩ := hcall
      simp only [run, step_error (by omega) hlt hindex, Option.bind_eq_bind, Option.bind_none]
    · have hne : ∀ index e, call = .set index e → index.toNat ≠ 2 ^ 32 - 1 := by
        intro index e hset hindex
        exact hcall ⟨index, e, hset, hindex⟩
      obtain ⟨v', hstep, h'⟩ := step_ok h call fun index e hset => Or.inr (hne index e hset)
      have hlt' : v'.length < 2 ^ 32 := by
        rw [h'.length, lengthAfter_append, ← h.length]
        cases call with
        | set index e =>
          have hindex := index.toNat_lt
          have hlargest := hne index e rfl
          simp only
          omega
        | get index => exact hlt
        | length => exact hlt
      have hrest := ih (history ++ [call]) v' h' hlt' (by
        obtain ⟨index, e, hmem, hindex⟩ := hcalls
        cases List.mem_cons.mp hmem with
        | inl hset => exact absurd hindex (hne index e hset.symm)
        | inr hmem => exact ⟨index, e, hmem, hindex⟩)
      simp only [run, hstep, Option.bind_eq_bind, Option.bind_some, hrest, Option.bind_none]

end Runs

/-- The calls on a vector have their results unless the array has more bytes than fit in 64 bits, or
index 2^32 - 1 is set in an array that does not have it from the start. -/
theorem meets_iff (n : UInt64) (hn : n ≠ 0) (calls : List (Call E)) :
    Meets n calls ↔ n.toNat < 2 ^ 61 ∧
      (2 ^ 32 ≤ n.toNat ∨ ∀ index e, Call.set index e ∈ calls → index.toNat ≠ 2 ^ 32 - 1) := by
  have hpos : 0 < n.toNat := by
    have hne : n.toNat ≠ 0 := fun h => hn (UInt64.toNat_inj.mp h)
    omega
  by_cases hlt : n.toNat < 2 ^ 61
  · obtain ⟨v, hcreate, h⟩ := @vectorCreate_ok E n hpos hlt
    rw [Meets, hcreate, Option.bind_some]
    constructor
    · intro hrun
      refine ⟨hlt, ?_⟩
      by_contra hcalls
      push Not at hcalls
      obtain ⟨hsmall, hlargest⟩ := hcalls
      have hlength : v.length = n.toNat := h.length
      rw [run_error hpos calls [] v h (by omega) hlargest] at hrun
      cases hrun
    · intro hcalls
      exact run_ok calls [] v h hcalls.2
  · rw [Meets, vectorCreate_error (not_lt.mp hlt), Option.bind_none]
    constructor
    · intro hnone
      cases hnone
    · intro hcalls
      exact absurd hcalls.1 hlt

/-- Index 5 is set in a vector of length 1, and then again. -/
theorem meets_iff_one : Meets 1 [Call.set 5 (some 'a'), Call.get 5, Call.set 5 none, Call.length] :=
  (meets_iff 1 (by decide) _).mpr ⟨by decide, Or.inr (by
    intro index e hmem
    have hindex : index = 5 := by
      simp only [List.mem_cons, Call.set.injEq, reduceCtorEq, List.not_mem_nil, or_false] at hmem
      cases hmem with
      | inl h => exact h.1
      | inr h =>
        cases h with
        | inl h => cases h
        | inr h => exact h.1
    rw [hindex]
    decide)⟩

/-- In a vector of length 1 the largest index is set. -/
theorem not_meets_largest : ¬Meets 1 [Call.set 4294967295 (some 'a')] := by
  have hcreate : vectorCreate 1 = some (some (⟨1, [some none]⟩ : Vec Char)) := rfl
  have hstep : step (some (⟨1, [some none]⟩ : Vec Char)) (.set 4294967295 (some 'a')) = none :=
    step_error (by simp) (by simp) rfl (some 'a')
  rw [Meets, hcreate, Option.bind_some, run, hstep]
  intro h
  cases h

end Courses.Exercises.Vector
