import Mathlib.Data.List.GetD
import Mathlib.Tactic

/-!
# Numbers as bytes

Fixed-width encodings of natural numbers, in both byte orders, and their
decoding. Every binary format of the development writes its numbers with them.
-/
namespace Courses.Lib

/-- The lowest `k` bytes of a number, least significant first. -/
def leBytes : ℕ → ℕ → List UInt8
  | 0, _ => []
  | k + 1, n => UInt8.ofNat n :: leBytes k (n / 256)

/-- The number with the given bytes, least significant first. -/
def ofLe (bs : List UInt8) : ℕ := bs.foldr (fun b n => b.toNat + 256 * n) 0

/-- The lowest `k` bytes of a number, most significant first. -/
def beBytes (k n : ℕ) : List UInt8 := (leBytes k n).reverse

/-- The number with the given bytes, most significant first. -/
def ofBe (bs : List UInt8) : ℕ := ofLe bs.reverse

@[simp] theorem leBytes_length (k n : ℕ) : (leBytes k n).length = k := by
  induction k generalizing n with
  | zero => rfl
  | succ k ih => simp [leBytes, ih]

@[simp] theorem beBytes_length (k n : ℕ) : (beBytes k n).length = k := by
  simp [beBytes]

@[simp] theorem ofLe_nil : ofLe [] = 0 := rfl

@[simp] theorem ofLe_cons (b : UInt8) (bs : List UInt8) :
    ofLe (b :: bs) = b.toNat + 256 * ofLe bs := rfl

theorem ofLe_leBytes (k n : ℕ) : ofLe (leBytes k n) = n % 256 ^ k := by
  induction k generalizing n with
  | zero => simp [leBytes, Nat.mod_one]
  | succ k ih =>
    have hb : (UInt8.ofNat n).toNat = n % 256 := by simp
    rw [leBytes, ofLe_cons, ih, hb, pow_succ', Nat.mod_mul]

theorem ofLe_leBytes_of_lt {k n : ℕ} (h : n < 256 ^ k) : ofLe (leBytes k n) = n := by
  rw [ofLe_leBytes, Nat.mod_eq_of_lt h]

theorem ofBe_beBytes_of_lt {k n : ℕ} (h : n < 256 ^ k) : ofBe (beBytes k n) = n := by
  rw [ofBe, beBytes, List.reverse_reverse, ofLe_leBytes_of_lt h]

theorem ofLe_lt (bs : List UInt8) : ofLe bs < 256 ^ bs.length := by
  induction bs with
  | nil => simp
  | cons b bs ih =>
    have hb : b.toNat < 256 := b.toNat_lt
    rw [ofLe_cons, List.length_cons, pow_succ]
    omega

end Courses.Lib

/-!
# Words in a byte memory

A flat byte memory read and written in little-endian 64-bit words, 64-bit unsigned
arithmetic on natural numbers, and the tag bits kept in the low bits of a word.
-/
namespace Courses.Lib

/-- A byte at every address. -/
abbrev Mem := ℕ → UInt8

/-- The word at `a`. -/
def word (m : Mem) (a : ℕ) : ℕ := ofLe ((List.range 8).map fun i => m (a + i))

/-- The memory with the word at `a` overwritten. -/
def setWord (m : Mem) (a v : ℕ) : Mem :=
  fun x => if a ≤ x ∧ x < a + 8 then (leBytes 8 v).getD (x - a) 0 else m x

/-- The memory after `n` bytes have been copied from `src` to `dst`. -/
def copyBytes (m : Mem) (dst src n : ℕ) : Mem :=
  fun x => if dst ≤ x ∧ x < dst + n then m (src + (x - dst)) else m x

variable {m m' : Mem} {a b v x : ℕ}

theorem setWord_outside (h : x < a ∨ a + 8 ≤ x) : setWord m a v x = m x :=
  if_neg (by omega)

theorem word_congr (h : ∀ x, a ≤ x → x < a + 8 → m' x = m x) : word m' a = word m a := by
  rw [word, word]
  congr 1
  apply List.map_congr_left
  intro i hi
  rw [List.mem_range] at hi
  exact h _ (by omega) (by omega)

theorem word_lt (m : Mem) (a : ℕ) : word m a < 2 ^ 64 := by
  have h := ofLe_lt ((List.range 8).map fun i => m (a + i))
  rw [List.length_map, List.length_range] at h
  exact h.trans_eq (by norm_num)

theorem word_setWord_self (h : v < 2 ^ 64) : word (setWord m a v) a = v := by
  have hbytes : (List.range 8).map (fun i => setWord m a v (a + i)) = leBytes 8 v := by
    apply List.ext_getElem
    · simp
    · intro i h₁ h₂
      rw [leBytes_length] at h₂
      rw [List.getElem_map, List.getElem_range, setWord, if_pos (by omega),
        Nat.add_sub_cancel_left, List.getD_eq_getElem]
  rw [word, hbytes]
  exact ofLe_leBytes_of_lt (h.trans_eq (by norm_num))

theorem word_setWord_of_disjoint (h : b + 8 ≤ a ∨ a + 8 ≤ b) :
    word (setWord m a v) b = word m b :=
  word_congr fun _ _ _ => setWord_outside (by omega)

/-! ## Unsigned arithmetic -/

/-- Addition of 64-bit words. -/
def wadd (a b : ℕ) : ℕ := (a + b) % 2 ^ 64

/-- Subtraction of 64-bit words. -/
def wsub (a b : ℕ) : ℕ := (a + 2 ^ 64 - b) % 2 ^ 64

/-- Multiplication of 64-bit words. -/
def wmul (a b : ℕ) : ℕ := (a * b) % 2 ^ 64

theorem wadd_eq (h : a + b < 2 ^ 64) : wadd a b = a + b := Nat.mod_eq_of_lt h

theorem wsub_eq (h : b ≤ a) (ha : a < 2 ^ 64) : wsub a b = a - b := by
  rw [wsub]
  omega

theorem wmul_eq (h : a * b < 2 ^ 64) : wmul a b = a * b := Nat.mod_eq_of_lt h

/-! ## Tag bits -/

/-- A word whose low three bits are tags splits under a mask. -/
theorem tagged_land (k t mask : ℕ) (ht : t < 8) :
    (8 * k + t) &&& mask = 8 * (k &&& mask / 8) + (t &&& mask % 8) := by
  have hlow : t &&& mask % 8 < 8 := lt_of_le_of_lt Nat.and_le_left ht
  apply Nat.eq_of_testBit_eq
  intro j
  have hmask : mask = 2 ^ 3 * (mask / 8) + mask % 8 := by omega
  have hm : mask % 8 < 2 ^ 3 := Nat.mod_lt _ (by decide)
  rw [Nat.testBit_and, hmask, Nat.testBit_two_pow_mul_add _ hm,
    show 8 * k + t = 2 ^ 3 * k + t by rfl, Nat.testBit_two_pow_mul_add _ ht, ← hmask,
    show 8 * (k &&& mask / 8) + (t &&& mask % 8) = 2 ^ 3 * (k &&& mask / 8) + (t &&& mask % 8)
      by rfl, Nat.testBit_two_pow_mul_add _ hlow]
  by_cases hj : j < 3 <;> simp [hj, Nat.testBit_and]

theorem tagged_lor (k t bit : ℕ) (ht : t < 8) (hbit : bit < 8) :
    (8 * k + t) ||| bit = 8 * k + (t ||| bit) := by
  have h := Nat.two_pow_add_eq_or_of_lt (i := 3) ht k
  have h' := Nat.two_pow_add_eq_or_of_lt (i := 3) (Nat.or_lt_two_pow (n := 3) ht hbit) k
  change 8 * k + t = _ at h
  change 8 * k + (t ||| bit) = _ at h'
  rw [h, h', Nat.or_assoc]

end Courses.Lib
