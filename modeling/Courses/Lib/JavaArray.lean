import Mathlib.Tactic

/-!
# Arrays of references

The slots of a Java array hold references, `none` where they hold `null`. Reading or writing a
slot that there is not throws, and so does making an array of a negative length.
-/
namespace Courses.Lib

inductive JavaException
  | illegalArgument
  | noSuchElement
  | nullPointer
  | indexOutOfBounds
  | negativeArraySize
  deriving DecidableEq

abbrev Slots (α : Type) := List (Option α)

variable {α : Type}

/-- `a[i]` -/
def loadSlot (a : Option (Slots α)) (i : ℤ) : Except JavaException (Option α) :=
  match a with
  | none => .error .nullPointer
  | some slots =>
    if 0 ≤ i ∧ i < slots.length then .ok (slots.getD i.toNat none) else .error .indexOutOfBounds

/-- `a[i] = x` -/
def putSlot (a : Option (Slots α)) (i : ℤ) (x : Option α) : Except JavaException (Slots α) :=
  match a with
  | none => .error .nullPointer
  | some slots =>
    if 0 ≤ i ∧ i < slots.length then .ok (slots.set i.toNat x) else .error .indexOutOfBounds

/-- A new array of length `n`. -/
def newSlots (n : ℤ) : Except JavaException (Slots α) :=
  if n < 0 then .error .negativeArraySize else .ok (List.replicate n.toNat none)

/-- The loop `b[j] = a[j]`, `j` from `i` on, with `k` rounds to go. -/
def copySlots (a : Option (Slots α)) (i : ℤ) (b : Slots α) : ℕ → Except JavaException (Slots α)
  | 0 => .ok b
  | k + 1 => do
    let b ← putSlot (some b) i (← loadSlot a i)
    copySlots a (i + 1) b k

variable {a : Option (Slots α)} {done rest s : Slots α}

theorem loadSlot_of_lt {i : ℕ} (h : i < (a.getD []).length) :
    loadSlot a i = .ok (a.getD [])[i] := by
  cases a with
  | none => simp at h
  | some slots =>
    have hlt : i < slots.length := h
    simp [loadSlot, hlt]

theorem putSlot_of_lt {i : ℕ} (h : i < s.length) (x : Option α) :
    putSlot (some s) i x = .ok (s.set i x) := by
  simp [putSlot, h]

theorem putSlot_of_le {i : ℕ} (h : s.length ≤ i) (x : Option α) :
    putSlot (some s) i x = .error .indexOutOfBounds := by
  simp [putSlot, h]

theorem copySlots_succ {i k : ℕ} {y : Option α} (hlt : i < (a.getD []).length)
    (hdone : done.length = i) :
    copySlots a i (done ++ y :: rest) (k + 1) =
      copySlots a (i + 1) (done ++ [(a.getD [])[i]] ++ rest) k := by
  have hput := putSlot_of_lt (s := done ++ y :: rest) (i := i) (by simp [hdone]) (a.getD [])[i]
  rw [copySlots, loadSlot_of_lt hlt]
  simp only [bind, Except.bind, hput]
  simp [List.set_append_right, hdone]

theorem copySlots_ok (a : Option (Slots α)) (done rest : Slots α) {k : ℕ}
    (hlt : done.length + k ≤ (a.getD []).length) (hle : k ≤ rest.length) :
    copySlots a done.length (done ++ rest) k =
      .ok (done ++ ((a.getD []).drop done.length).take k ++ rest.drop k) := by
  induction k generalizing done rest with
  | zero => simp [copySlots]
  | succ k ih =>
    cases rest with
    | nil => simp at hle
    | cons y rest =>
      have hi : done.length < (a.getD []).length := by omega
      have hcopy := ih (done ++ [(a.getD [])[done.length]]) rest (by simp; omega)
        (by simpa using hle)
      rw [copySlots_succ hi rfl]
      rw [List.length_append, List.length_singleton, Nat.cast_add, Nat.cast_one] at hcopy
      rw [hcopy, List.drop_eq_getElem_cons hi, List.take_succ_cons, List.drop_succ_cons,
        List.append_assoc done, List.singleton_append]

theorem copySlots_error (a : Option (Slots α)) (done rest : Slots α) {k : ℕ}
    (hlt : done.length + k ≤ (a.getD []).length) (hle : rest.length < k) :
    copySlots a done.length (done ++ rest) k = .error .indexOutOfBounds := by
  induction k generalizing done rest with
  | zero => simp at hle
  | succ k ih =>
    have hi : done.length < (a.getD []).length := by omega
    cases rest with
    | nil =>
      rw [copySlots, loadSlot_of_lt hi]
      simp only [bind, Except.bind, putSlot_of_le (s := done ++ []) (i := done.length) (by simp)]
    | cons y rest =>
      have hcopy := ih (done ++ [(a.getD [])[done.length]]) rest (by simp; omega)
        (by simpa using hle)
      rw [List.length_append, List.length_singleton, Nat.cast_add, Nat.cast_one] at hcopy
      rw [copySlots_succ hi rfl, hcopy]

theorem newSlots_natCast (n : ℕ) :
    (newSlots n : Except JavaException (Slots α)) = .ok (List.replicate n none) := by
  rw [newSlots, if_neg (by omega), Int.toNat_natCast]

theorem newSlots_neg {n : ℤ} (h : n < 0) :
    (newSlots n : Except JavaException (Slots α)) = .error .negativeArraySize := if_pos h

/-! ## Items in the first slots -/

/-- The items fill the first slots, and there is nothing in the others. -/
def HoldsFirst (s : Slots α) (items : List α) : Prop :=
  ∃ r, s = items.map some ++ List.replicate r none

namespace HoldsFirst

variable {items : List α}

theorem length_le (h : HoldsFirst s items) : items.length ≤ s.length := by
  obtain ⟨r, hr⟩ := h
  simp [hr]

theorem take (h : HoldsFirst s items) : s.take items.length = items.map some := by
  obtain ⟨r, hr⟩ := h
  simp [hr]

theorem getElem (h : HoldsFirst s items) {i : ℕ} (hi : i < items.length) (hlt : i < s.length) :
    s[i] = some items[i] := by
  obtain ⟨r, hr⟩ := h
  simp [hr, hi]

/-- One more item in the slot behind the last one. -/
theorem set_length (h : HoldsFirst s items) (hlt : items.length < s.length) (item : α) :
    HoldsFirst (s.set items.length (some item)) (items ++ [item]) := by
  obtain ⟨r, hr⟩ := h
  cases r with
  | zero => simp [hr] at hlt
  | succ r => exact ⟨r, by simp [hr, List.replicate_succ]⟩

theorem copy_ok (h : HoldsFirst (a.getD []) items) {n : ℕ} (hn : items.length ≤ n) :
    copySlots a 0 (List.replicate n none) items.length =
      .ok (items.map some ++ List.replicate (n - items.length) none) := by
  have hcopy := copySlots_ok a [] (List.replicate n none) (k := items.length)
    (by simpa using h.length_le) (by simpa using hn)
  simpa [h.take] using hcopy

theorem copy_error (h : HoldsFirst (a.getD []) items) {n : ℕ} (hn : n < items.length) :
    copySlots a 0 (List.replicate n none) items.length = .error .indexOutOfBounds := by
  have hcopy := copySlots_error a [] (List.replicate n none) (k := items.length)
    (by simpa using h.length_le) (by simpa using hn)
  simpa using hcopy

end HoldsFirst

end Courses.Lib
