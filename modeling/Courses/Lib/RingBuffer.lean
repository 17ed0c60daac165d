import Mathlib.Data.List.Basic
import Mathlib.Logic.Function.Basic
import Mathlib.Tactic

/-!
# Ring buffers

A buffer of `n` cells with a position to read at and a position to write at. Nobody counts what
waits: when the positions meet the buffer is empty, also after a lap of the writer. So a buffer
holds less than `n` elements, and the element that would fill it loses all of them.
-/
namespace Courses.Lib

variable {α : Type*}

structure RingBuffer (α : Type*) where
  buf : ℕ → α
  rpos : ℕ
  wpos : ℕ

namespace RingBuffer

/-- The position behind `pos`. -/
def advance (n pos : ℕ) : ℕ := if pos + 1 = n then 0 else pos + 1

def put (n : ℕ) (r : RingBuffer α) (a : α) : RingBuffer α :=
  { r with buf := Function.update r.buf r.wpos a, wpos := advance n r.wpos }

def get (n : ℕ) (r : RingBuffer α) : Option (α × RingBuffer α) :=
  if r.rpos = r.wpos then none
  else some (r.buf r.rpos, { r with rpos := advance n r.rpos })

/-- What a queue becomes when an element comes. -/
def enqueue (n : ℕ) (q : List α) (a : α) : List α :=
  if q.length + 1 = n then [] else q ++ [a]

/-- The buffer holds the elements of the queue, the first of them at the position to read at. -/
structure Holds (n : ℕ) (r : RingBuffer α) (q : List α) : Prop where
  rpos_lt : r.rpos < n
  length_lt : q.length < n
  wpos : r.wpos = (r.rpos + q.length) % n
  cell : ∀ (i : ℕ) (hi : i < q.length), r.buf ((r.rpos + i) % n) = q[i]

section Positions

variable {n pos : ℕ}

theorem advance_eq (hpos : pos < n) : advance n pos = (pos + 1) % n := by
  unfold advance
  split
  · rename_i hlast
    rw [hlast, Nat.mod_self]
  · rw [Nat.mod_eq_of_lt (by omega)]

/-- Fewer than `n` steps do not lead around. -/
theorem add_mod_inj {i j : ℕ} (hi : i < n) (hj : j < n) (h : (pos + i) % n = (pos + j) % n) :
    i = j := by
  have hmod : i % n = j % n := Nat.ModEq.add_left_cancel' pos h
  rwa [Nat.mod_eq_of_lt hi, Nat.mod_eq_of_lt hj] at hmod

end Positions

namespace Holds

variable {n : ℕ} {r : RingBuffer α} {q : List α} {a : α}

theorem wpos_lt (h : Holds n r q) : r.wpos < n := by
  rw [h.wpos]
  exact Nat.mod_lt _ (Nat.zero_lt_of_lt h.rpos_lt)

theorem rpos_eq_wpos (h : Holds n r q) : r.rpos = r.wpos ↔ q = [] := by
  rw [h.wpos]
  constructor
  · intro hmeet
    have hzero : (r.rpos + 0) % n = (r.rpos + q.length) % n := by
      rwa [Nat.add_zero, Nat.mod_eq_of_lt h.rpos_lt]
    have hlength := add_mod_inj (Nat.zero_lt_of_lt h.rpos_lt) h.length_lt hzero
    exact List.length_eq_zero_iff.1 hlength.symm
  · intro hempty
    rw [hempty, List.length_nil, Nat.add_zero, Nat.mod_eq_of_lt h.rpos_lt]

theorem put (h : Holds n r q) (a : α) : Holds n (r.put n a) (enqueue n q a) := by
  have hwpos : advance n r.wpos = (r.rpos + (q.length + 1)) % n := by
    rw [advance_eq h.wpos_lt, h.wpos, Nat.mod_add_mod, Nat.add_assoc]
  unfold enqueue
  split
  · rename_i hfull
    constructor
    · exact h.rpos_lt
    · exact Nat.zero_lt_of_lt h.rpos_lt
    · change advance n r.wpos = r.rpos % n
      rw [hwpos, hfull, Nat.add_mod_right]
    · intro i hi
      cases hi
  · rename_i hroom
    have hlength : q.length + 1 < n := by
      have hlt := h.length_lt
      omega
    constructor
    · exact h.rpos_lt
    · simpa using hlength
    · change advance n r.wpos = (r.rpos + (q ++ [a]).length) % n
      rw [hwpos, List.length_append, List.length_singleton]
    · intro i hi
      change Function.update r.buf r.wpos a ((r.rpos + i) % n) = (q ++ [a])[i]
      obtain hold | hnew : i < q.length ∨ i = q.length := by
        simp only [List.length_append, List.length_singleton] at hi
        omega
      · have hne : (r.rpos + i) % n ≠ r.wpos := by
          rw [h.wpos]
          intro heq
          have := add_mod_inj (by omega) h.length_lt heq
          omega
        rw [Function.update_of_ne hne, h.cell i hold, List.getElem_append_left hold]
      · subst hnew
        rw [← h.wpos, Function.update_self, List.getElem_concat_length rfl]

theorem get_nil (h : Holds n r []) : r.get n = none := by
  have hmeet := h.rpos_eq_wpos.2 rfl
  simp [RingBuffer.get, hmeet]

theorem get_cons (h : Holds n r (a :: q)) : ∃ r', r.get n = some (a, r') ∧ Holds n r' q := by
  have hne : r.rpos ≠ r.wpos := by
    intro hmeet
    cases h.rpos_eq_wpos.1 hmeet
  have hfirst : r.buf r.rpos = a := by
    have hcell := h.cell 0 (Nat.succ_pos _)
    rwa [Nat.add_zero, Nat.mod_eq_of_lt h.rpos_lt] at hcell
  have hrpos := advance_eq h.rpos_lt
  refine ⟨{ r with rpos := advance n r.rpos }, ?_, ?_, ?_, ?_, ?_⟩
  · simp [RingBuffer.get, hne, hfirst]
  · rw [hrpos]
    exact Nat.mod_lt _ (Nat.zero_lt_of_lt h.rpos_lt)
  · exact (Nat.lt_succ_self _).trans h.length_lt
  · change r.wpos = (advance n r.rpos + q.length) % n
    rw [h.wpos, hrpos, Nat.mod_add_mod, List.length_cons, Nat.add_assoc, Nat.add_comm 1]
  · intro i hi
    have hcell := h.cell (i + 1) (Nat.succ_lt_succ hi)
    change r.buf ((advance n r.rpos + i) % n) = q[i]
    rwa [hrpos, Nat.mod_add_mod, Nat.add_assoc, Nat.add_comm 1]

end Holds

/-! ## Queues -/

section Queues

variable {n : ℕ} {q : List α}

theorem enqueue_length_lt (hq : q.length < n) (a : α) : (enqueue n q a).length < n := by
  unfold enqueue
  split
  · exact Nat.zero_lt_of_lt hq
  · rw [List.length_append, List.length_singleton]
    omega

/-- Elements that find room wait in the order in which they come. -/
theorem foldl_enqueue_of_lt {l : List α} (h : q.length + l.length < n) :
    l.foldl (enqueue n) q = q ++ l := by
  induction l generalizing q with
  | nil => simp
  | cons a l ih =>
    have hroom : ¬ q.length + 1 = n := by
      rw [List.length_cons] at h
      omega
    have hstep : enqueue n q a = q ++ [a] := if_neg hroom
    rw [List.foldl_cons, hstep, ih, List.append_assoc, List.singleton_append]
    rw [List.length_cons] at h
    simp only [List.length_append, List.length_singleton]
    omega

/-- Whole laps are lost. -/
theorem foldl_enqueue (hq : q.length < n) (l : List α) :
    l.foldl (enqueue n) q = (q ++ l).drop ((q.length + l.length) / n * n) := by
  induction l generalizing q with
  | nil => simp [Nat.div_eq_of_lt hq]
  | cons a l ih =>
    rw [List.foldl_cons, ih (enqueue_length_lt hq a)]
    unfold enqueue
    split
    · rename_i hfull
      have hlap : q ++ a :: l = (q ++ [a]) ++ l := by simp
      have hlength : (q ++ [a]).length = n := by simpa using hfull
      have hlaps : (q.length + (a :: l).length) / n * n = n + l.length / n * n := by
        have hsum : q.length + (a :: l).length = l.length + n := by
          rw [List.length_cons]
          omega
        rw [hsum, Nat.add_div_right _ (Nat.zero_lt_of_lt hq), Nat.succ_mul, Nat.add_comm]
      rw [hlaps, hlap, ← List.drop_drop, ← hlength, List.drop_left, List.length_nil, Nat.zero_add,
        List.nil_append]
    · have hlength : (q ++ [a]).length + l.length = q.length + (a :: l).length := by
        rw [List.length_append, List.length_singleton, List.length_cons]
        omega
      rw [hlength, List.append_assoc, List.singleton_append]

end Queues

end RingBuffer

end Courses.Lib
