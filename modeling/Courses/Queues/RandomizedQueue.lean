import Courses.Lib.JavaArray
import Courses.Lib.Numbers
import Courses.Lib.Sessions
import Mathlib.Algebra.Order.Group.Multiset
import Mathlib.Data.List.ReduceOption

/-!
# The randomized queue

`RandomizedQueue` keeps its items in the first slots of an array that grows and shrinks by
halves. A slot without an item is `none`; so is the array as long as there has been none.
What `StdRandom` draws is an argument of the call that draws it.
-/
namespace Courses.Queues

open Courses.Lib

structure RandomizedQueue (α : Type) where
  array : Option (Slots α)
  capacity : ℤ
  size : ℤ

abbrev RandomizedQueueM (α : Type) := EStateM JavaException (RandomizedQueue α)

namespace RandomizedQueue

variable {α : Type}

/-- `new RandomizedQueue()` -/
def new : RandomizedQueue α := ⟨none, 0, 0⟩

/-! ## The array -/

/-- `array[i]` -/
def slot (i : ℤ) : RandomizedQueueM α (Option α) := do
  match loadSlot (← get).array i with
  | .error e => throw e
  | .ok x => return x

/-- `array[i] = x` -/
def setSlot (i : ℤ) (x : Option α) : RandomizedQueueM α Unit := do
  match putSlot (← get).array i x with
  | .error e => throw e
  | .ok slots => modify fun q => { q with array := some slots }

def setSize (n : ℤ) : RandomizedQueueM α Unit := modify fun q => { q with size := n }

def setCapacity (n : ℤ) : RandomizedQueueM α Unit := modify fun q => { q with capacity := n }

/-! ## The methods -/

def resize (N : ℤ) : RandomizedQueueM α Unit := do
  match newSlots N with
  | .error e => throw e
  | .ok narray =>
    match copySlots (← get).array 0 narray (← get).size.toNat with
    | .error e => throw e
    | .ok narray => modify fun q => { q with array := some narray, capacity := N }

/-- The size of the array that `enqueue` asks for when the array is full. -/
def nsize (size : ℤ) : ℤ := if int32 (2 * size) = 0 then 2 else int32 (2 * size)

def grow : RandomizedQueueM α Unit := do
  if (← get).size = (← get).capacity then resize (nsize (← get).size) else return ()

def enqueue (item : Option α) : RandomizedQueueM α Unit :=
  match item with
  | none => throw .illegalArgument
  | some item => do
    grow
    setSlot (← get).size (some item)
    setSize (int32 ((← get).size + 1))

def shrink : RandomizedQueueM α Unit := do
  if int32 ((← get).size * 4) ≤ (← get).capacity then
    setCapacity ((← get).capacity.tdiv 2)
    resize (← get).capacity
  else
    return ()

/-- `dequeue` where `StdRandom.uniform(0, size)` is `rnd`. -/
def dequeue (rnd : ℤ) : RandomizedQueueM α (Option α) := do
  if (← get).size = 0 then
    throw .noSuchElement
  else
    let ret ← slot rnd
    setSize (int32 ((← get).size - 1))
    setSlot rnd (← slot (← get).size)
    setSlot (← get).size none
    shrink
    return ret

/-- `sample` where `StdRandom.uniform(0, size)` is `rnd`. -/
def sample (rnd : ℤ) : RandomizedQueueM α (Option α) := do
  if (← get).size = 0 then throw .noSuchElement else slot rnd

/-! ## Iteration -/

structure RandQueueIterator where
  indexes : List ℤ
  curIndex : ℕ

/-- The indexes of a new iterator before they are shuffled. -/
def indexes (q : RandomizedQueue α) : List ℤ := (List.range q.size.toNat).map Nat.cast

/-- The loop of `hasNext`: where it leaves the iterator. -/
def skipNulls (q : RandomizedQueue α) (it : RandQueueIterator) :
    Except JavaException RandQueueIterator :=
  if h : it.curIndex < it.indexes.length then
    match loadSlot q.array it.indexes[it.curIndex] with
    | .error e => .error e
    | .ok none => skipNulls q { it with curIndex := it.curIndex + 1 }
    | .ok (some _) => .ok it
  else
    .ok it
termination_by it.indexes.length - it.curIndex

/-- The answer of `hasNext`, and the iterator after it. -/
def hasNext (q : RandomizedQueue α) (it : RandQueueIterator) :
    Except JavaException (Bool × RandQueueIterator) := do
  let it ← skipNulls q it
  return (it.curIndex ≠ it.indexes.length, it)

/-- The answer of `next`, and the iterator after it. -/
def next (q : RandomizedQueue α) (it : RandQueueIterator) :
    Except JavaException (Option α × RandQueueIterator) := do
  let (more, it) ← hasNext q it
  if !more then .error .noSuchElement
  else
    match it.indexes[it.curIndex]? with
    | none => .error .indexOutOfBounds
    | some i => return (← loadSlot q.array i, { it with curIndex := it.curIndex + 1 })

/-- Asked for the next item as long as there is one, the iterator gives the items. -/
inductive Drains (q : RandomizedQueue α) : RandQueueIterator → List α → Prop
  | done {it after : RandQueueIterator} : hasNext q it = .ok (false, after) → Drains q it []
  | more {it found after : RandQueueIterator} {item : α} {items : List α} :
      hasNext q it = .ok (true, found) → next q found = .ok (some item, after) →
      Drains q after items → Drains q it (item :: items)

/-! ## Calls -/

inductive Call (α : Type)
  | enqueue (item : Option α)
  | dequeue (rnd : ℤ)
  | sample (rnd : ℤ)

/-- What a call answers: an item, nothing, or an exception. -/
abbrev Reply (α : Type) := Except JavaException (Option α)

def method : Call α → RandomizedQueueM α (Option α)
  | .enqueue item => do enqueue item; return none
  | .dequeue rnd => dequeue rnd
  | .sample rnd => sample rnd

def step (q : RandomizedQueue α) (c : Call α) : Reply α × RandomizedQueue α := answer (method c) q

/-- What `StdRandom.uniform(0, size)` draws from. -/
def Uniform (q : RandomizedQueue α) (rnd : ℤ) : Prop := 0 ≤ rnd ∧ rnd < q.size

/-- A queue that is not empty draws a number below its size. -/
def Draws (q : RandomizedQueue α) : Call α → Prop
  | .enqueue _ => True
  | .dequeue rnd => q.size ≠ 0 → Uniform q rnd
  | .sample rnd => q.size ≠ 0 → Uniform q rnd

/-! ## Items -/

def slots (q : RandomizedQueue α) : Slots α := q.array.getD []

/-- The items in the slots below the size. -/
def stored (q : RandomizedQueue α) : List α := (q.slots.take q.size.toNat).reduceOption

/-- The items that a call which was answered like this put into the queue. -/
def gained : Call α → Reply α → Multiset α
  | .enqueue (some item), .ok _ => {item}
  | _, _ => 0

/-- The items that a call which was answered like this took out of the queue. -/
def lost : Call α → Reply α → Multiset α
  | .dequeue _, .ok (some item) => {item}
  | _, _ => 0

def enqueued (calls : List (Call α)) (replies : List (Reply α)) : Multiset α :=
  (List.zipWith gained calls replies).sum

def dequeued (calls : List (Call α)) (replies : List (Reply α)) : Multiset α :=
  (List.zipWith lost calls replies).sum

end RandomizedQueue

end Courses.Queues

/-!
# The slots of a randomized queue

The items are in the first slots of an array whose length is no slot or a power of two, at
most `2 ^ 30`. Each method keeps this, but `dequeue` compares `size * 4` with the capacity, and
from `2 ^ 29` on that product is negative: the queue then gives up half of an array that is
more than half full.
-/
namespace Courses.Queues.RandomizedQueue

open Courses.Lib

variable {α : Type} {q q' : RandomizedQueue α} {items : List α}

/-! ## Items in the first slots -/

/-- The items fill the first slots. -/
structure Filled (q : RandomizedQueue α) (items : List α) : Prop where
  slots : HoldsFirst q.slots items
  size : q.size = items.length

/-- The capacities that doubling and halving lead to. -/
def Doubled (n : ℤ) : Prop := n = 0 ∨ ∃ k ≤ 30, n = 2 ^ k

structure Stores (q : RandomizedQueue α) (items : List α) : Prop extends Filled q items where
  capacity : q.capacity = q.slots.length
  doubled : Doubled q.capacity

theorem new_stores : Stores (new : RandomizedQueue α) [] :=
  ⟨⟨⟨0, rfl⟩, rfl⟩, rfl, .inl rfl⟩

namespace Filled

theorem stored (h : Filled q items) : q.stored = items := by
  rw [RandomizedQueue.stored, h.size, Int.toNat_natCast, h.slots.take]
  simp [List.reduceOption]

theorem load (h : Filled q items) {i : ℕ} (hi : i < items.length) :
    loadSlot q.array i = .ok (some items[i]) := by
  have hlt := hi.trans_le h.slots.length_le
  rw [loadSlot_of_lt hlt]
  exact congrArg Except.ok (h.slots.getElem hi hlt)

theorem resize (h : Filled q items) {n : ℕ} (hn : items.length ≤ n) :
    ∃ q', resize n q = .ok () q' ∧ Filled q' items ∧ q'.capacity = n ∧ q'.slots.length = n := by
  have hcopy : copySlots q.array 0 (List.replicate n none) q.size.toNat =
      .ok (items.map some ++ List.replicate (n - items.length) none) := by
    rw [h.size, Int.toNat_natCast]
    exact h.slots.copy_ok hn
  refine ⟨⟨some (items.map some ++ List.replicate (n - items.length) none), n, q.size⟩, ?_,
    ⟨⟨_, rfl⟩, h.size⟩, rfl, by simp [RandomizedQueue.slots, hn]⟩
  rw [RandomizedQueue.resize, newSlots_natCast]
  simp only [get_bind, hcopy]
  rfl

theorem resize_error (h : Filled q items) {n : ℕ} (hn : n < items.length) :
    RandomizedQueue.resize n q = .error .indexOutOfBounds q := by
  have hcopy : copySlots q.array 0 (List.replicate n none) q.size.toNat =
      .error .indexOutOfBounds := by
    rw [h.size, Int.toNat_natCast]
    exact h.slots.copy_error hn
  rw [RandomizedQueue.resize, newSlots_natCast]
  simp only [get_bind, hcopy]
  rfl

end Filled

/-! ## Growing and shrinking -/

theorem Doubled.le {n : ℤ} (h : Doubled n) : 0 ≤ n ∧ n ≤ 2 ^ 30 := by
  obtain rfl | ⟨k, hk, rfl⟩ := h
  · simp
  · exact ⟨by positivity, pow_le_pow_right₀ (by norm_num) hk⟩

theorem Doubled.double {n : ℤ} (h : Doubled n) (hlt : n < 2 ^ 30) : Doubled (2 * n) := by
  obtain rfl | ⟨k, -, rfl⟩ := h
  · exact .inl rfl
  · have hk : k < 30 := (pow_lt_pow_iff_right₀ (by norm_num)).1 hlt
    exact .inr ⟨k + 1, hk, (pow_succ' 2 k).symm⟩

theorem Doubled.half {n : ℤ} (h : Doubled n) : Doubled (n.tdiv 2) := by
  obtain rfl | ⟨k, hk, rfl⟩ := h
  · exact .inl rfl
  · cases k with
    | zero => exact .inl rfl
    | succ k => exact .inr ⟨k, by omega, by rw [pow_succ, Int.mul_tdiv_cancel _ two_ne_zero]⟩

theorem Doubled.eq_of_lt {n : ℤ} (h : Doubled n) (hlt : 2 ^ 29 < n) : n = 2 ^ 30 := by
  obtain rfl | ⟨k, hk, rfl⟩ := h
  · norm_num at hlt
  · have hlt : 29 < k := (pow_lt_pow_iff_right₀ (by norm_num)).1 hlt
    rw [show k = 30 by omega]

theorem nsize_of_lt {n : ℤ} (hle : 0 ≤ n) (hlt : n < 2 ^ 30) :
    nsize n = if n = 0 then 2 else 2 * n := by
  rw [nsize, int32_eq (by omega) (by omega)]
  simp

namespace Stores

theorem length_le_capacity (h : Stores q items) : items.length ≤ q.capacity := by
  have hle := h.slots.length_le
  have hcapacity := h.capacity
  omega

theorem length_le_pow (h : Stores q items) : items.length ≤ 2 ^ 30 := by
  have hle := h.length_le_capacity
  have hpow := h.doubled.le
  omega

theorem resize (h : Filled q items) {n : ℤ} (hn : items.length ≤ n) (hdoubled : Doubled n) :
    ∃ q', resize n q = .ok () q' ∧ Stores q' items ∧ q'.capacity = n := by
  obtain ⟨n, rfl⟩ := Int.eq_ofNat_of_zero_le hdoubled.le.1
  obtain ⟨q', hresize, hfilled, hcapacity, hlength⟩ := h.resize (Int.ofNat_le.1 hn)
  exact ⟨q', hresize, ⟨hfilled, by rw [hcapacity, hlength], by rwa [hcapacity]⟩, hcapacity⟩

theorem grow (h : Stores q items) (hlt : items.length < 2 ^ 30) :
    ∃ q', grow q = .ok () q' ∧ Stores q' items ∧ items.length < q'.slots.length := by
  have hsize := h.size
  by_cases hfull : q.size = q.capacity
  · have hnsize : nsize q.size = if q.size = 0 then 2 else 2 * q.size :=
      nsize_of_lt (by omega) (by omega)
    have hdoubled : Doubled (nsize q.size) := by
      rw [hnsize, hfull]
      split
      · exact .inr ⟨1, by norm_num, rfl⟩
      · exact h.doubled.double (by omega)
    have hmore : items.length < nsize q.size := by
      rw [hnsize]
      split <;> omega
    obtain ⟨q', hresize, hstores, hcapacity⟩ := resize h.toFilled hmore.le hdoubled
    have hlength := hstores.capacity
    refine ⟨q', ?_, hstores, by omega⟩
    rw [RandomizedQueue.grow, get_bind, get_bind, if_pos hfull, get_bind, hresize]
  · have hcapacity := h.capacity
    have hle := h.slots.length_le
    refine ⟨q, ?_, h, by omega⟩
    rw [RandomizedQueue.grow, get_bind, get_bind, if_neg hfull]
    rfl

theorem grow_full (h : Stores q items) (hfull : items.length = 2 ^ 30) :
    RandomizedQueue.grow q = .error .negativeArraySize q := by
  have hsize : q.size = 2 ^ 30 := by rw [h.size, hfull]; norm_num
  have hcapacity : q.size = q.capacity := by
    have hle := h.length_le_capacity
    have hpow := h.doubled.le
    omega
  have hnsize : nsize q.size < 0 := by
    rw [hsize, nsize, int32_eq_sub (by norm_num) (by norm_num)]
    norm_num
  rw [RandomizedQueue.grow, get_bind, get_bind, if_pos hcapacity, get_bind,
    RandomizedQueue.resize, newSlots_neg hnsize]
  rfl

theorem shrink (h : Stores q items) (hle : items.length ≤ 2 ^ 29)
    (hlt : items.length < q.slots.length) : ∃ q', shrink q = .ok () q' ∧ Stores q' items := by
  have hsize := h.size
  have hcapacity := h.capacity
  have hhalf : q.capacity.tdiv 2 = q.capacity / 2 := Int.tdiv_eq_ediv_of_nonneg (by omega)
  by_cases hshrink : int32 (q.size * 4) ≤ q.capacity
  · have hfits : items.length ≤ q.capacity.tdiv 2 := by
      rw [hhalf]
      obtain hlt' | heq := Nat.lt_or_eq_of_le hle
      · rw [int32_eq (by omega) (by omega)] at hshrink
        omega
      · have hmax := h.doubled.eq_of_lt (by omega)
        omega
    have hfilled : Filled { q with capacity := q.capacity.tdiv 2 } items := ⟨h.slots, h.size⟩
    obtain ⟨q', hresize, hstores, -⟩ := resize hfilled hfits h.doubled.half
    refine ⟨q', ?_, hstores⟩
    rw [RandomizedQueue.shrink, get_bind, get_bind, if_pos hshrink, get_bind, setCapacity,
      modify_bind, get_bind, hresize]
  · refine ⟨q, ?_, h⟩
    rw [RandomizedQueue.shrink, get_bind, get_bind, if_neg hshrink]
    rfl

/-- Four times the size is negative, so half of the array is given up. -/
theorem shrink_error (h : Stores q items) (hle : 2 ^ 29 < items.length)
    (hlt : items.length < 2 ^ 30) :
    ∃ q', RandomizedQueue.shrink q = .error .indexOutOfBounds q' := by
  have hsize := h.size
  have hcapacity : q.capacity = 2 ^ 30 := by
    have hle := h.length_le_capacity
    exact h.doubled.eq_of_lt (by omega)
  have hshrink : int32 (q.size * 4) ≤ q.capacity := by
    rw [int32_eq_sub (by omega) (by omega)]
    omega
  have hhalf : q.capacity.tdiv 2 = (2 ^ 29 : ℕ) := by rw [hcapacity]; rfl
  have hfilled : Filled { q with capacity := q.capacity.tdiv 2 } items := ⟨h.slots, h.size⟩
  have hresize := hfilled.resize_error hle
  rw [← hhalf] at hresize
  refine ⟨{ q with capacity := q.capacity.tdiv 2 }, ?_⟩
  rw [RandomizedQueue.shrink, get_bind, get_bind, if_pos hshrink, get_bind, setCapacity,
    modify_bind, get_bind, hresize]

end Stores

/-! ## Single slots -/

theorem slot_of_lt {i : ℕ} (h : i < q.slots.length) : slot i q = .ok q.slots[i] q := by
  have hload := loadSlot_of_lt (a := q.array) h
  rw [slot, get_bind, hload]
  rfl

theorem setSlot_of_lt {i : ℕ} (h : i < q.slots.length) (x : Option α) :
    setSlot i x q = .ok () { q with array := some (q.slots.set i x) } := by
  cases harray : q.array with
  | none => simp [slots, harray] at h
  | some s =>
    have hslots : q.slots = s := by simp [slots, harray]
    rw [hslots] at h
    rw [setSlot, get_bind, harray, putSlot_of_lt h, hslots]
    rfl

@[simp] theorem slots_mk (s : Slots α) (c n : ℤ) : slots ⟨some s, c, n⟩ = s := rfl

/-! ## Items in and out -/

theorem Stores.enqueue (h : Stores q items) (hlt : items.length < 2 ^ 30) (item : α) :
    ∃ q', enqueue (some item) q = .ok () q' ∧ Stores q' (items ++ [item]) := by
  obtain ⟨q₁, hgrow, h₁, hroom⟩ := h.grow hlt
  have hsize : int32 (q₁.size + 1) = (items ++ [item]).length := by
    rw [h₁.size, int32_eq (by omega) (by omega)]
    simp
  refine ⟨⟨some (q₁.slots.set items.length (some item)), q₁.capacity, int32 (q₁.size + 1)⟩, ?_,
    ⟨h₁.slots.set_length hroom item, hsize⟩, by simpa using h₁.capacity, h₁.doubled⟩
  have hset := setSlot_of_lt hroom (some item)
  rw [← h₁.size] at hset
  rw [RandomizedQueue.enqueue, bind_of_ok hgrow, get_bind, bind_of_ok hset, get_bind]
  rfl

theorem Stores.enqueue_full (h : Stores q items) (hfull : items.length = 2 ^ 30) (item : α) :
    RandomizedQueue.enqueue (some item) q = .error .negativeArraySize q := by
  rw [RandomizedQueue.enqueue, bind_of_error (h.grow_full hfull)]

/-- The queue when the item at `i` is taken out and the last item moved to its place. -/
def takeOut (q : RandomizedQueue α) (i n : ℕ) (last : α) : RandomizedQueue α :=
  ⟨some ((q.slots.set i (some last)).set n none), q.capacity, n⟩

theorem Stores.takeOut {last : α} {i : ℕ} (h : Stores q (items ++ [last]))
    (hi : i ≤ items.length) : Stores (q.takeOut i items.length last) (items.set i last) := by
  obtain ⟨r, hr⟩ := h.slots
  have hmoved : q.slots.set i (some last) =
      (items.set i last).map some ++ some last :: List.replicate r none := by
    obtain hi | rfl := hi.lt_or_eq
    · simp [hr, hi, List.map_set]
    · simp [hr, List.set_eq_of_length_le]
  have hslots : (q.takeOut i items.length last).slots =
      (items.set i last).map some ++ List.replicate (r + 1) none := by
    rw [RandomizedQueue.takeOut, slots_mk, hmoved]
    simp [List.replicate_succ]
  refine ⟨⟨⟨r + 1, hslots⟩, by simp [RandomizedQueue.takeOut]⟩, ?_, h.doubled⟩
  simpa [RandomizedQueue.takeOut] using h.capacity

theorem dequeue_eq {last : α} {i : ℕ} (h : Stores q (items ++ [last]))
    (hi : i < (items ++ [last]).length) :
    dequeue i q = (do shrink; return some (items ++ [last])[i] :
      RandomizedQueueM α (Option α)) (q.takeOut i items.length last) := by
  have hlength : (items ++ [last]).length = items.length + 1 := by simp
  have hle := h.slots.length_le
  have hpow := h.length_le_pow
  rw [hlength] at hle hpow
  have hsize : q.size = items.length + 1 := by rw [h.size, hlength]; norm_num
  have hne : ¬ q.size = 0 := by omega
  have hret : slot i q = .ok (some (items ++ [last])[i]) q := by
    rw [slot_of_lt (by omega), h.slots.getElem hi (by omega)]
  have hwrap : int32 (q.size - 1) = items.length := by
    rw [int32_eq (by omega) (by omega)]
    omega
  obtain ⟨q₁, hq₁⟩ : ∃ q₁ : RandomizedQueue α, q₁ = { q with size := items.length } := ⟨_, rfl⟩
  obtain ⟨q₂, hq₂⟩ : ∃ q₂ : RandomizedQueue α,
      q₂ = { q₁ with array := some (q.slots.set i (some last)) } := ⟨_, rfl⟩
  have hdecr : setSize (int32 (q.size - 1)) q = .ok () q₁ := by
    rw [hq₁, hwrap]
    rfl
  have hsize₁ : q₁.size = items.length := by rw [hq₁]
  have hslots₁ : q₁.slots = q.slots := by rw [hq₁]; rfl
  have hlast : slot q₁.size q₁ = .ok (some last) q₁ := by
    have hget := h.slots.getElem (i := items.length) (by omega) (by omega)
    rw [hsize₁, slot_of_lt (by rw [hslots₁]; omega)]
    simp only [hslots₁, hget]
    simp
  have hmove : setSlot i (some last) q₁ = .ok () q₂ := by
    rw [setSlot_of_lt (by rw [hslots₁]; omega), hslots₁, hq₂]
  have hclear : setSlot q₂.size none q₂ = .ok () (q.takeOut i items.length last) := by
    have hset := setSlot_of_lt (q := q₂) (i := items.length) (by simp [hq₂]; omega) none
    rw [← hsize₁] at hset
    simpa [takeOut, hq₂, hq₁] using hset
  rw [dequeue, get_bind, if_neg hne, bind_of_ok hret, get_bind, bind_of_ok hdecr, get_bind,
    bind_of_ok hlast, bind_of_ok hmove, get_bind, bind_of_ok hclear]

end Courses.Queues.RandomizedQueue

/-!
# Runs of a randomized queue

Whatever is drawn, a queue holds the items that were put into it and not taken out again, and
is only asked for slots that it has, exactly if no item is taken out of more than `2 ^ 29 + 1`.
-/
namespace Courses.Queues.RandomizedQueue

open Courses.Lib

variable {α : Type} {q q' : RandomizedQueue α} {items : List α} {c : Call α}
  {calls : List (Call α)}

/-- No slot was asked for that the array does not have. -/
def InBounds (reply : Reply α) : Prop :=
  reply ≠ .error .indexOutOfBounds ∧ reply ≠ .error .nullPointer

/-- An item is taken out of at most this many. -/
def Fits (q : RandomizedQueue α) : Call α → Prop
  | .dequeue _ => q.size ≤ 2 ^ 29 + 1
  | _ => True

/-! ## Single calls -/

theorem dequeue_nil (h : Stores q []) (rnd : ℤ) :
    dequeue rnd q = .error .noSuchElement q := by
  have hzero : q.size = 0 := h.size
  rw [dequeue, get_bind, if_pos hzero]
  rfl

theorem sample_nil (h : Stores q []) (rnd : ℤ) : sample rnd q = .error .noSuchElement q := by
  have hzero : q.size = 0 := h.size
  rw [sample, get_bind, if_pos hzero]
  rfl

theorem Stores.uniform (h : Stores q items) {rnd : ℤ} (hrnd : Uniform q rnd) :
    ∃ i : ℕ, rnd = i ∧ i < items.length := by
  obtain ⟨hle, hlt⟩ := hrnd
  rw [h.size] at hlt
  exact ⟨rnd.toNat, by omega, by omega⟩

theorem sample_ok (h : Stores q items) {i : ℕ} (hi : i < items.length) :
    sample i q = .ok (some items[i]) q := by
  have hne : ¬ q.size = 0 := by
    rw [h.size]
    omega
  have hle := h.slots.length_le
  rw [sample, get_bind, if_neg hne, slot_of_lt (by omega), h.slots.getElem hi (by omega)]

theorem perm_set (last : α) {i : ℕ} (hi : i < (items ++ [last]).length) :
    ((items ++ [last])[i] :: items.set i last).Perm (items ++ [last]) := by
  have hle : i ≤ items.length := by
    rw [List.length_append, List.length_singleton] at hi
    omega
  obtain hi | rfl := hle.lt_or_eq
  · rw [List.getElem_append_left hi]
    calc List.Perm (items[i] :: items.set i last) (items[i] :: last :: items.eraseIdx i) :=
          (List.set_perm_cons_eraseIdx hi last).cons _
      List.Perm _ (last :: items[i] :: items.eraseIdx i) := .swap _ _ _
      List.Perm _ (last :: items) := (List.getElem_cons_eraseIdx_perm hi).cons _
      List.Perm _ (items ++ [last]) := (List.perm_append_singleton last items).symm
  · rw [List.getElem_concat_length rfl, List.set_eq_of_length_le le_rfl]
    exact (List.perm_append_singleton last items).symm

theorem dequeue_ok {last : α} {i : ℕ} (h : Stores q (items ++ [last]))
    (hi : i < (items ++ [last]).length) (hfits : items.length ≤ 2 ^ 29) :
    ∃ q', dequeue i q = .ok (some (items ++ [last])[i]) q' ∧ Stores q' (items.set i last) := by
  have htake := h.takeOut (i := i) (by simpa [Nat.lt_succ_iff] using hi)
  have hroom : (items.set i last).length < (q.takeOut i items.length last).slots.length := by
    have hle := h.slots.length_le
    simp only [List.length_append, List.length_singleton] at hle
    simp [takeOut]
    omega
  obtain ⟨q', hshrink, hstores⟩ := htake.shrink (by simpa using hfits) hroom
  refine ⟨q', ?_, hstores⟩
  rw [dequeue_eq h hi, bind_of_ok hshrink]
  rfl

theorem step_enqueue_none (q : RandomizedQueue α) :
    step q (.enqueue none) = (.error .illegalArgument, q) := rfl

theorem step_enqueue (h : Stores q items) (hlt : items.length < 2 ^ 30) (item : α) :
    ∃ q', step q (.enqueue (some item)) = (.ok none, q') ∧ Stores q' (items ++ [item]) := by
  obtain ⟨q', henqueue, hstores⟩ := h.enqueue hlt item
  have hmethod : method (.enqueue (some item)) q = .ok none q' := bind_of_ok henqueue
  exact ⟨q', answer_of_ok hmethod, hstores⟩

theorem step_enqueue_full (h : Stores q items) (hfull : items.length = 2 ^ 30) (item : α) :
    step q (.enqueue (some item)) = (.error .negativeArraySize, q) := by
  have hmethod : method (.enqueue (some item)) q = .error .negativeArraySize q :=
    bind_of_error (h.enqueue_full hfull item)
  exact answer_of_error hmethod

/-- The queue gives up slots that it needs. -/
theorem step_dequeue_error {rnd : ℤ} (h : Stores q items) (hrnd : Uniform q rnd)
    (hlarge : 2 ^ 29 + 1 < items.length) :
    (step q (.dequeue rnd)).1 = .error .indexOutOfBounds := by
  obtain ⟨i, rfl, hi⟩ := h.uniform hrnd
  obtain rfl | ⟨items, last, rfl⟩ := List.eq_nil_or_concat' items
  · simp at hi
  · have hpow := h.length_le_pow
    simp only [List.length_append, List.length_singleton] at hi hlarge hpow
    have htake := h.takeOut (i := i) (by omega)
    obtain ⟨q', hshrink⟩ := htake.shrink_error (by simp; omega) (by simp; omega)
    have hmethod : method (.dequeue i) q = .error .indexOutOfBounds q' := by
      rw [method, dequeue_eq h (by simpa using hi), bind_of_error hshrink]
    rw [step, answer_of_error hmethod]

/-- What a call adds to the items and takes from them. -/
theorem step_balance (h : Stores q items) (hdraws : Draws q c) (hfits : Fits q c) :
    ∃ items', Stores (step q c).2 items' ∧ InBounds (step q c).1 ∧
      (items' : Multiset α) + lost c (step q c).1 = items + gained c (step q c).1 := by
  cases c with
  | enqueue item =>
    cases item with
    | none =>
      rw [step_enqueue_none]
      exact ⟨items, h, by simp [InBounds], rfl⟩
    | some item =>
      obtain hlt | hfull := h.length_le_pow.lt_or_eq
      · obtain ⟨q', hstep, hstores⟩ := step_enqueue h hlt item
        rw [hstep]
        refine ⟨items ++ [item], hstores, by simp [InBounds], ?_⟩
        change ((items ++ [item] : List α) : Multiset α) + 0 = items + {item}
        rw [add_zero, ← Multiset.coe_singleton, Multiset.coe_add]
      · rw [step_enqueue_full h hfull]
        exact ⟨items, h, by simp [InBounds], rfl⟩
  | dequeue rnd =>
    obtain rfl | ⟨items, last, rfl⟩ := List.eq_nil_or_concat' items
    · have hstep : step q (.dequeue rnd) = (.error .noSuchElement, q) :=
        answer_of_error (dequeue_nil h rnd)
      rw [hstep]
      exact ⟨[], h, by simp [InBounds], rfl⟩
    · have hsize := h.size
      rw [List.length_append, List.length_singleton] at hsize
      obtain ⟨i, rfl, hi⟩ := h.uniform (hdraws (by omega))
      have hfits : q.size ≤ 2 ^ 29 + 1 := hfits
      obtain ⟨q', hdequeue, hstores⟩ := dequeue_ok h hi (by omega)
      have hstep : step q (.dequeue i) = (.ok (some (items ++ [last])[i]), q') :=
        answer_of_ok hdequeue
      rw [hstep]
      refine ⟨items.set i last, hstores, by simp [InBounds], ?_⟩
      have hperm := Multiset.coe_eq_coe.2 (perm_set last hi)
      change (items.set i last : Multiset α) + {(items ++ [last])[i]} = ↑(items ++ [last]) + 0
      rw [add_zero, add_comm, Multiset.singleton_add]
      exact hperm
  | sample rnd =>
    cases items with
    | nil =>
      have hstep : step q (.sample rnd) = (.error .noSuchElement, q) :=
        answer_of_error (sample_nil h rnd)
      rw [hstep]
      exact ⟨[], h, by simp [InBounds], rfl⟩
    | cons item items =>
      have hsize := h.size
      rw [List.length_cons] at hsize
      obtain ⟨i, rfl, hi⟩ := h.uniform (hdraws (by omega))
      have hstep : step q (.sample i) = (.ok (some (item :: items)[i]), q) :=
        answer_of_ok (sample_ok h hi)
      rw [hstep]
      exact ⟨item :: items, h, by simp [InBounds], rfl⟩

/-! ## Iteration -/

theorem skipNulls_of_lt (h : Stores q items) {it : RandQueueIterator} {i : ℕ}
    (hget : it.indexes[it.curIndex]? = some (i : ℤ)) (hi : i < items.length) :
    skipNulls q it = .ok it := by
  obtain ⟨hlt, hget⟩ := List.getElem?_eq_some_iff.1 hget
  rw [skipNulls, dif_pos hlt, hget, h.load hi]

/-- An iterator behind `before` gives the items at the indexes that are left. -/
theorem drains_of_lt (h : Stores q items) (before after : List ℕ)
    (hlt : ∀ i ∈ after, i < items.length) :
    Drains q ⟨(before ++ after).map Nat.cast, before.length⟩ (after.filterMap (items[·]?)) := by
  induction after generalizing before with
  | nil =>
    obtain ⟨it, hit⟩ : ∃ it : RandQueueIterator,
        it = ⟨(before ++ []).map Nat.cast, before.length⟩ := ⟨_, rfl⟩
    have hend : it.curIndex = it.indexes.length := by simp [hit]
    have hdone : hasNext q it = .ok (false, it) := by
      rw [hasNext, skipNulls, dif_neg (by omega)]
      simp [bind, Except.bind, pure, Except.pure, hend]
    rw [← hit]
    exact .done hdone
  | cons i after ih =>
    obtain ⟨it, hit⟩ : ∃ it : RandQueueIterator,
        it = ⟨(before ++ i :: after).map Nat.cast, before.length⟩ := ⟨_, rfl⟩
    have hi := hlt i List.mem_cons_self
    have hget : it.indexes[it.curIndex]? = some (i : ℤ) := by simp [hit]
    have hskip := skipNulls_of_lt h hget hi
    have hne : it.curIndex ≠ it.indexes.length := by simp [hit]
    have hmore : hasNext q it = .ok (true, it) := by
      rw [hasNext, hskip]
      simp [bind, Except.bind, pure, Except.pure, hne]
    have hnext : next q it = .ok (some items[i], { it with curIndex := it.curIndex + 1 }) := by
      rw [next, hmore]
      simp [bind, Except.bind, pure, Except.pure, hget, h.load hi]
    have hrest := ih (before ++ [i]) fun j hj => hlt j (List.mem_cons_of_mem _ hj)
    rw [← hit, List.filterMap_cons_some (List.getElem?_eq_getElem hi)]
    refine .more hmore hnext ?_
    simpa [hit] using hrest

theorem filterMap_range (items : List α) :
    (List.range items.length).filterMap (items[·]?) = items := by
  induction items with
  | nil => rfl
  | cons item items ih =>
    have hfirst : (fun i : ℕ => (item :: items)[i]?) 0 = some item := rfl
    rw [List.length_cons, List.range_succ_eq_map, List.filterMap_cons_some hfirst,
      List.filterMap_map]
    exact congrArg _ ih

theorem drains_shuffled (h : Stores q items) {order : List ℤ} (horder : order.Perm q.indexes) :
    ∃ yielded, Drains q ⟨order, 0⟩ yielded ∧ yielded.Perm items := by
  rw [indexes, h.size, Int.toNat_natCast] at horder
  obtain ⟨naturals, hnaturals, rfl⟩ : ∃ naturals : List ℕ,
      naturals.Perm (List.range items.length) ∧ naturals.map Nat.cast = order := by
    refine ⟨order.map Int.toNat, ?_, ?_⟩
    · simpa [Function.comp_def] using horder.map Int.toNat
    · rw [List.map_map]
      refine (List.map_congr_left fun j hj => ?_).trans (List.map_id order)
      obtain ⟨i, -, rfl⟩ := List.mem_map.1 (horder.mem_iff.1 hj)
      simp
  refine ⟨naturals.filterMap (items[·]?), drains_of_lt h [] naturals ?_, ?_⟩
  · intro i hi
    exact List.mem_range.1 (hnaturals.mem_iff.1 hi)
  · have hperm := hnaturals.filterMap (items[·]?)
    rwa [filterMap_range] at hperm

/-! ## Runs -/

/-- What a client can rely on after these calls got these replies. -/
structure Reliable (calls : List (Call α)) (replies : List (Reply α)) (q : RandomizedQueue α) :
    Prop where
  inBounds : ∀ reply ∈ replies, InBounds reply
  capacity : q.capacity = q.slots.length
  size_le : q.size ≤ q.capacity
  size : q.size = q.stored.length
  balance : (q.stored : Multiset α) + dequeued calls replies = enqueued calls replies
  sample : ∀ rnd, Uniform q rnd →
    ∃ item ∈ q.stored, step q (.sample rnd) = (.ok (some item), q)
  drains : ∀ order : List ℤ, order.Perm q.indexes →
    ∃ yielded, Drains q ⟨order, 0⟩ yielded ∧ yielded.Perm q.stored

theorem session_balance (h : Stores q items) (hdraws : Meets step Draws q calls)
    (hfits : Meets step Fits q calls) :
    ∃ items', Stores (session step q calls).2 items' ∧
      (∀ reply ∈ (session step q calls).1, InBounds reply) ∧
      (items' : Multiset α) + dequeued calls (session step q calls).1 =
        items + enqueued calls (session step q calls).1 := by
  induction calls generalizing q items with
  | nil => exact ⟨items, h, by simp [session], rfl⟩
  | cons c calls ih =>
    obtain ⟨items₁, h₁, hin, hfirst⟩ := step_balance h hdraws.1 hfits.1
    obtain ⟨items₂, h₂, hins, hrest⟩ := ih h₁ hdraws.2 hfits.2
    refine ⟨items₂, h₂, List.forall_mem_cons.2 ⟨hin, hins⟩, ?_⟩
    simp only [dequeued, enqueued, session, List.zipWith_cons_cons, List.sum_cons] at hrest ⊢
    calc (items₂ : Multiset α) + (lost c _ + (List.zipWith lost calls _).sum)
      _ = lost c _ + (items₂ + (List.zipWith lost calls _).sum) := add_left_comm _ _ _
      _ = lost c _ + (items₁ + (List.zipWith gained calls _).sum) := by rw [hrest]
      _ = items₁ + lost c _ + (List.zipWith gained calls _).sum := by
        rw [← add_assoc, add_comm (lost c _)]
      _ = items + (gained c _ + (List.zipWith gained calls _).sum) := by rw [hfirst, add_assoc]

/-- In bounds all along, no item was taken out of too large a queue. -/
theorem fits_of_inBounds (h : Stores q items) (hdraws : Meets step Draws q calls)
    (hin : ∀ reply ∈ (session step q calls).1, InBounds reply) : Meets step Fits q calls := by
  induction calls generalizing q items with
  | nil => trivial
  | cons c calls ih =>
    obtain ⟨hin, hins⟩ := List.forall_mem_cons.1 hin
    have hfits : Fits q c := by
      cases c with
      | enqueue item => trivial
      | sample rnd => trivial
      | dequeue rnd =>
        by_contra hlarge
        have hsize := h.size
        have hlarge : 2 ^ 29 + 1 < q.size := lt_of_not_ge hlarge
        exact hin.1 (step_dequeue_error h (hdraws.1 (by omega)) (by omega))
    obtain ⟨items₁, h₁, -, -⟩ := step_balance h hdraws.1 hfits
    exact ⟨hfits, ih h₁ hdraws.2 hins⟩

/-- Whatever the random numbers are, a queue can be relied on after a run if and only if no item
was taken out of more than `2 ^ 29 + 1` items. -/
theorem reliable_iff (h : Meets step Draws (new : RandomizedQueue α) calls) :
    Reliable calls (session step new calls).1 (session step new calls).2 ↔
      Meets step Fits (new : RandomizedQueue α) calls := by
  constructor
  · intro hreliable
    exact fits_of_inBounds new_stores h hreliable.inBounds
  · intro hfits
    obtain ⟨items, hstores, hin, hbalance⟩ := session_balance new_stores h hfits
    have hstored := hstores.stored
    refine ⟨hin, hstores.capacity, ?_, by rw [hstored, hstores.size], ?_, ?_, ?_⟩
    · rw [hstores.size]
      exact hstores.length_le_capacity
    · rw [hstored, hbalance, Multiset.coe_nil, zero_add]
    · intro rnd hrnd
      obtain ⟨i, rfl, hi⟩ := hstores.uniform hrnd
      rw [hstored]
      exact ⟨items[i], List.getElem_mem hi, answer_of_ok (sample_ok hstores hi)⟩
    · intro order horder
      rw [hstored]
      exact drains_shuffled hstores horder

theorem reliable_iff_four_calls :
    let calls : List (Call ℕ) := [.enqueue (some 1), .enqueue (some 2), .dequeue 0, .sample 0]
    Meets step Draws new calls ∧
      Reliable calls (session step new calls).1 (session step new calls).2 := by
  intro calls
  have h : Meets step Draws new calls :=
    ⟨trivial, trivial, fun _ => by constructor <;> decide, fun _ => by constructor <;> decide,
      trivial⟩
  have htwo : (2 : ℤ) ≤ 2 ^ 29 + 1 := by norm_num
  have hfits : Meets step Fits new calls := ⟨trivial, trivial, htwo, trivial, trivial⟩
  exact ⟨h, (reliable_iff h).2 hfits⟩

/-! ## Too large a queue -/

theorem session_enqueue (h : Stores q items) (n : ℕ) (hle : items.length + n ≤ 2 ^ 30)
    (item : α) :
    let calls := List.replicate n (Call.enqueue (some item))
    Meets step Draws q calls ∧
      ∃ items', Stores (session step q calls).2 items' ∧ items'.length = items.length + n := by
  induction n generalizing q items with
  | zero => exact ⟨trivial, items, h, rfl⟩
  | succ n ih =>
    obtain ⟨q₁, hstep, h₁⟩ := step_enqueue h (by omega) item
    obtain ⟨hdraws, items₂, h₂, hlength⟩ := ih h₁ (by simp; omega)
    rw [List.length_append, List.length_singleton] at hlength
    rw [List.replicate_succ]
    simp only [Meets, session, hstep]
    exact ⟨⟨trivial, hdraws⟩, items₂, h₂, by omega⟩

theorem reliable_overflows :
    ¬ ∀ calls : List (Call Unit), Meets step Draws new calls →
      Reliable calls (session step new calls).1 (session step new calls).2 := by
  intro h
  obtain ⟨n, hn⟩ : ∃ n, n = 2 ^ 29 + 2 := ⟨_, rfl⟩
  obtain ⟨hdraws, items, hstores, hlength⟩ :=
    session_enqueue (new_stores (α := Unit)) n (by simp; omega) ()
  have hsize := hstores.size
  have huniform : Uniform (session step new (List.replicate n (.enqueue (some ())))).2 0 := by
    constructor
    · exact le_rfl
    · simp at hlength
      omega
  have hmeets := (meets_concat new (List.replicate n (Call.enqueue (some ()))) (.dequeue 0)).2
    ⟨hdraws, fun _ => huniform⟩
  have hin := (h _ hmeets).inBounds
  rw [session_concat_replies] at hin
  have herror := step_dequeue_error hstores huniform (by simp at hlength; omega)
  exact (hin _ List.mem_concat_self).1 herror

end Courses.Queues.RandomizedQueue
