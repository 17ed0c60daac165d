import Courses.Jos.NumberFormat

/-!
# Strings in memory

`lib/string.c`. A string is the bytes in front of a zero byte, and every loop here relies on the
zero: the fuel says how many bytes may be looked at. Blocks are moved whole units at a time, up or
down, such that a block may be moved over itself.
-/
namespace Courses.Jos.Strings

open Courses.Lib Courses.Jos.Printfmt

abbrev Memory (α : Type) := ℕ → α

/-! ## Moving blocks -/

section Blocks

variable {α : Type}

/-- One unit is read, and then written. -/
def moveUnit (unit : ℕ) (m : Memory α) (d s : ℕ) : Memory α := fun a =>
  if d ≤ a ∧ a < d + unit then m (s + (a - d)) else m a

/-- Units from the first to the last one. -/
@[grind]
def moveUp (unit : ℕ) (m : Memory α) (d s : ℕ) : ℕ → Memory α
  | 0 => m
  | count + 1 => moveUp unit (moveUnit unit m d s) (d + unit) (s + unit) count

/-- Units from the last to the first one; the pointers are behind them. -/
@[grind]
def moveDown (unit : ℕ) (m : Memory α) (d s : ℕ) : ℕ → Memory α
  | 0 => m
  | count + 1 =>
    moveDown unit (moveUnit unit m (d - unit) (s - unit)) (d - unit) (s - unit) count

def moveBlock (unit : ℕ) (m : Memory α) (dst src n : ℕ) : Memory α :=
  if src < dst ∧ src + n > dst then moveDown unit m (dst + n) (src + n) (n / unit)
  else moveUp unit m dst src (n / unit)

/-- `memmove`, with string instructions where `ASM` is set: they move words if all is aligned. -/
def memmove (asm : Bool) (m : Memory UInt8) (dst src n : ℕ) : Memory UInt8 :=
  let start := if src < dst ∧ src + n > dst then n else 0
  if asm ∧ (src + start) % 4 = 0 ∧ (dst + start) % 4 = 0 ∧ n % 4 = 0 then
    moveBlock 4 m dst src n
  else moveBlock 1 m dst src n

theorem moveUp_apply (unit : ℕ) (m : Memory α) (d s count a : ℕ)
    (h : d ≤ s ∨ s + unit * count ≤ d) :
    moveUp unit m d s count a =
      if d ≤ a ∧ a < d + unit * count then m (s + (a - d)) else m a := by
  induction count generalizing m d s with
  | zero =>
    have hnone : ¬ (d ≤ a ∧ a < d + unit * 0) := by omega
    rw [if_neg hnone]
    rfl
  | succ count ih =>
    rw [Nat.mul_succ] at h ⊢
    rw [moveUp, ih (moveUnit unit m d s) _ _ (by omega)]
    unfold moveUnit
    by_cases hlow : d ≤ a ∧ a < d + unit
    · rw [if_neg (by omega), if_pos hlow, if_pos (by omega)]
    · by_cases hin : d + unit ≤ a ∧ a < d + unit + unit * count
      · -- what is read here has not been written yet
        have hunread : ¬ (d ≤ s + unit + (a - (d + unit)) ∧
            s + unit + (a - (d + unit)) < d + unit) := by omega
        rw [if_pos hin, if_neg hunread, if_pos (by omega)]
        congr 1
        omega
      · rw [if_neg hin, if_neg hlow, if_neg (by omega)]

theorem moveDown_apply (unit : ℕ) (m : Memory α) (d s count a : ℕ) (h : s ≤ d)
    (hs : unit * count ≤ s) :
    moveDown unit m d s count a =
      if d - unit * count ≤ a ∧ a < d then m (s - (d - a)) else m a := by
  induction count generalizing m d s with
  | zero =>
    have hnone : ¬ (d - unit * 0 ≤ a ∧ a < d) := by omega
    rw [if_neg hnone]
    rfl
  | succ count ih =>
    rw [Nat.mul_succ] at hs ⊢
    rw [moveDown, ih (moveUnit unit m (d - unit) (s - unit)) _ _ (by omega) (by omega)]
    unfold moveUnit
    by_cases hhigh : d - unit ≤ a ∧ a < d
    · rw [if_neg (by omega), if_pos (by omega), if_pos (by omega)]
      congr 1
      omega
    · by_cases hin : d - unit - unit * count ≤ a ∧ a < d - unit
      · rw [if_pos hin, if_neg (by omega), if_pos (by omega)]
        congr 1
        omega
      · rw [if_neg hin, if_neg (by omega), if_neg (by omega)]

/-- A block comes to its destination as it was, also if it overlaps it. -/
theorem moveBlock_apply (unit : ℕ) (m : Memory α) (dst src n a : ℕ) (h : unit ∣ n)
    (hpos : 0 < unit) :
    moveBlock unit m dst src n a =
      if dst ≤ a ∧ a < dst + n then m (src + (a - dst)) else m a := by
  obtain ⟨count, rfl⟩ := h
  unfold moveBlock
  rw [Nat.mul_div_cancel_left _ hpos]
  split
  · rw [moveDown_apply _ _ _ _ _ _ (by omega) (by omega), Nat.add_sub_cancel]
    split
    · congr 1
      omega
    · rfl
  · rw [moveUp_apply _ _ _ _ _ _ (by omega)]

/-- The instructions do what the loops do: `n` bytes come to the destination as they were before,
and no other byte changes. -/
theorem memmove_eq (asm : Bool) (m : Memory UInt8) (dst src n : ℕ) :
    memmove asm m dst src n = fun a =>
      if dst ≤ a ∧ a < dst + n then m (src + (a - dst)) else m a := by
  funext a
  unfold memmove
  generalize (if src < dst ∧ src + n > dst then n else 0) = start
  by_cases hwords : asm ∧ (src + start) % 4 = 0 ∧ (dst + start) % 4 = 0 ∧ n % 4 = 0
  · rw [if_pos hwords]
    exact moveBlock_apply 4 m dst src n a (Nat.dvd_of_mod_eq_zero hwords.2.2.2) (by decide)
  · rw [if_neg hwords]
    exact moveBlock_apply 1 m dst src n a (one_dvd n) Nat.one_pos

end Blocks

/-! ## Strings -/

section Strings

variable {m m' : Memory UInt8} {p q : ℕ} {s t : List UInt8}

/-- The string at `p`. -/
structure HoldsString (m : Memory UInt8) (p : ℕ) (s : List UInt8) : Prop where
  cell : ∀ (i : ℕ) (hi : i < s.length), m (p + i) = s[i]
  noNul : 0 ∉ s
  ends : m (p + s.length) = 0

/-- A loop that looks at byte after byte until one is to stop at. -/
@[grind]
def seek (stop : UInt8 → Bool) (m : Memory UInt8) : ℕ → ℕ → Option ℕ
  | 0, _ => none
  | fuel + 1, p => if stop (m p) then some p else seek stop m fuel (p + 1)

def strlen (m : Memory UInt8) (fuel s : ℕ) : Option ℕ := do
  let e ← seek (· = 0) m fuel s
  return e - s

/-- `strfind` -/
def strfind (m : Memory UInt8) (fuel s : ℕ) (c : UInt8) : Option ℕ :=
  seek (fun b => b = 0 || b = c) m fuel s

/-- `strchr`, where `none` inside stands for the null pointer. -/
def strchr (m : Memory UInt8) (fuel s : ℕ) (c : UInt8) : Option (Option ℕ) := do
  let e ← seek (fun b => b = 0 || b = c) m fuel s
  return if m e = 0 then none else some e

/-- `strcmp`, with strings that may be in two places. -/
@[grind]
def strcmp (m m' : Memory UInt8) : ℕ → ℕ → ℕ → Option ℤ
  | 0, _, _ => none
  | fuel + 1, p, q =>
    if m p ≠ 0 ∧ m p = m' q then strcmp m m' fuel (p + 1) (q + 1)
    else some ((m p).toNat - (m' q).toNat)

/-- The bytes of a string. -/
@[grind]
def readString (m : Memory UInt8) : ℕ → ℕ → Option (List UInt8)
  | 0, _ => none
  | fuel + 1, p => if m p = 0 then some [] else (readString m fuel (p + 1)).map (m p :: ·)

namespace HoldsString

theorem nil_iff : HoldsString m p [] ↔ m p = 0 := by
  constructor
  · intro h
    exact h.ends
  · intro h
    exact ⟨fun i hi => absurd hi (Nat.not_lt_zero i), List.not_mem_nil, h⟩

theorem cons_iff {c : UInt8} :
    HoldsString m p (c :: s) ↔ m p = c ∧ c ≠ 0 ∧ HoldsString m (p + 1) s := by
  constructor
  · rintro ⟨hcell, hnul, hends⟩
    rw [List.mem_cons, not_or] at hnul
    refine ⟨hcell 0 (by simp), Ne.symm hnul.1, fun i hi => ?_, hnul.2, ?_⟩
    · have hnext := hcell (i + 1) (by simpa using hi)
      rw [← Nat.add_assoc, Nat.add_right_comm] at hnext
      exact hnext
    · rw [List.length_cons, ← Nat.add_assoc, Nat.add_right_comm] at hends
      exact hends
  · rintro ⟨hhead, hne, hcell, hnul, hends⟩
    refine ⟨fun i hi => ?_, ?_, ?_⟩
    · cases i with
      | zero => exact hhead
      | succ i =>
        have hnext := hcell i (by simpa using hi)
        rw [Nat.add_right_comm, Nat.add_assoc] at hnext
        exact hnext
    · rw [List.mem_cons, not_or]
      exact ⟨hne.symm, hnul⟩
    · rw [List.length_cons, ← Nat.add_assoc, Nat.add_right_comm]
      exact hends

theorem append (h : HoldsString m p (s ++ t)) : HoldsString m (p + s.length) t := by
  induction s generalizing p with
  | nil => exact h
  | cons c s ih =>
    have hrest := ih (cons_iff.1 h).2.2
    rwa [Nat.add_assoc, Nat.add_comm 1] at hrest

/-- A string constant. -/
theorem const (hs : 0 ∉ s) : HoldsString (fun a => s.getD a 0) 0 s := by
  refine ⟨fun i hi => ?_, hs, ?_⟩
  · rw [Nat.zero_add, List.getD_eq_getElem?_getD, List.getElem?_eq_getElem hi]
    rfl
  · simp

/-- A string is still there if none of its bytes has changed. -/
theorem congr (h : HoldsString m p s)
    (hsame : ∀ a, p ≤ a → a ≤ p + s.length → m' a = m a) : HoldsString m' p s := by
  constructor
  · intro i hi
    rw [hsame _ (by omega) (by omega)]
    exact h.cell i hi
  · exact h.noNul
  · rw [hsame _ (by omega) le_rfl]
    exact h.ends

end HoldsString

theorem seek_eq {stop : UInt8 → Bool} {fuel : ℕ} (h : HoldsString m p s) (hstop : stop 0 = true)
    (hfuel : s.length < fuel) :
    seek stop m fuel p = some (p + (s.takeWhile (!stop ·)).length) := by
  induction s generalizing p fuel with
  | nil =>
    obtain ⟨fuel, rfl⟩ : ∃ k, fuel = k + 1 := Nat.exists_eq_succ_of_ne_zero (by omega)
    rw [seek, HoldsString.nil_iff.1 h, if_pos hstop]
    rfl
  | cons c s ih =>
    obtain ⟨fuel, rfl⟩ : ∃ k, fuel = k + 1 := Nat.exists_eq_succ_of_ne_zero (by omega)
    obtain ⟨hhead, -, hrest⟩ := HoldsString.cons_iff.1 h
    rw [seek, hhead]
    cases hc : stop c with
    | true => simp [hc]
    | false =>
      rw [if_neg Bool.false_ne_true, ih hrest (by simpa using hfuel)]
      simp only [List.takeWhile_cons, hc, Bool.not_false, if_true, List.length_cons]
      congr 1
      omega

theorem strlen_eq {fuel : ℕ} (h : HoldsString m p s) (hfuel : s.length < fuel) :
    strlen m fuel p = some s.length := by
  have hall : s.takeWhile (fun c => !decide (c = 0)) = s := by
    rw [List.takeWhile_eq_self_iff]
    intro c hc
    simpa using ne_of_mem_of_not_mem hc h.noNul
  rw [strlen, seek_eq h (decide_eq_true rfl) hfuel, hall]
  simp

theorem readString_eq {fuel : ℕ} (h : HoldsString m p s) (hfuel : s.length < fuel) :
    readString m fuel p = some s := by
  induction s generalizing p fuel with
  | nil =>
    obtain ⟨fuel, rfl⟩ : ∃ k, fuel = k + 1 := Nat.exists_eq_succ_of_ne_zero (by omega)
    exact if_pos (HoldsString.nil_iff.1 h)
  | cons c s ih =>
    obtain ⟨fuel, rfl⟩ : ∃ k, fuel = k + 1 := Nat.exists_eq_succ_of_ne_zero (by omega)
    obtain ⟨hhead, hc, hrest⟩ := HoldsString.cons_iff.1 h
    rw [readString, hhead, if_neg hc, ih hrest (by simpa using hfuel)]
    rfl

/-- Strings are compared like words in a dictionary of unsigned bytes. -/
theorem strcmp_eq {fuel : ℕ} (hs : HoldsString m p s) (ht : HoldsString m' q t)
    (hfuel : s.length < fuel) :
    ∃ v, strcmp m m' fuel p q = some v ∧ (v = 0 ↔ s = t) ∧ (v < 0 ↔ s < t) := by
  induction s generalizing p q t fuel with
  | nil =>
    obtain ⟨fuel, rfl⟩ : ∃ k, fuel = k + 1 := Nat.exists_eq_succ_of_ne_zero (by omega)
    have hp := HoldsString.nil_iff.1 hs
    refine ⟨_, if_neg fun hsame => hsame.1 hp, ?_⟩
    rw [hp]
    cases t with
    | nil => simp [HoldsString.nil_iff.1 ht]
    | cons c t =>
      obtain ⟨hq, hne, -⟩ := HoldsString.cons_iff.1 ht
      have hpos : 0 < c.toNat := UInt8.pos_iff_ne_zero.2 hne
      rw [hq]
      simp
      omega
  | cons b s ih =>
    obtain ⟨fuel, rfl⟩ : ∃ k, fuel = k + 1 := Nat.exists_eq_succ_of_ne_zero (by omega)
    obtain ⟨hp, hb, hs⟩ := HoldsString.cons_iff.1 hs
    cases t with
    | nil =>
      have hq := HoldsString.nil_iff.1 ht
      have hpos : 0 < b.toNat := UInt8.pos_iff_ne_zero.2 hb
      refine ⟨_, if_neg fun hsame => hb ?_, ?_⟩
      · rw [← hp, hsame.2, hq]
      · rw [hp, hq]
        simp
        omega
    | cons c t =>
      obtain ⟨hq, hc, ht⟩ := HoldsString.cons_iff.1 ht
      by_cases hbc : b = c
      · obtain ⟨v, hv, hzero, hneg⟩ := ih hs ht (by simpa using hfuel)
        refine ⟨v, ?_, ?_, ?_⟩
        · rw [strcmp, if_pos ⟨by rwa [hp], by rw [hp, hq, hbc]⟩, hv]
        · rw [hzero, hbc]
          simp
        · rw [hneg, hbc, List.cons_lt_cons_iff]
          simp
      · refine ⟨_, if_neg fun hsame => hbc ?_, ?_⟩
        · rw [← hp, hsame.2, hq]
        · have hne : b.toNat ≠ c.toNat := fun hsame => hbc (UInt8.toNat_inj.1 hsame)
          rw [hp, hq, List.cons_lt_cons_iff, UInt8.lt_iff_toNat_lt]
          simp [hbc]
          omega

/-! ## Copying strings -/

/-- The loop of `strlcpy`, with the pointers behind the copied bytes. -/
@[grind]
def strlcpyLoop (m : Memory UInt8) (dst src : ℕ) : ℕ → Memory UInt8 × ℕ
  | 0 => (m, dst)
  | size + 1 =>
    if m src ≠ 0 then strlcpyLoop (Function.update m dst (m src)) (dst + 1) (src + 1) size
    else (m, dst)

def strlcpy (m : Memory UInt8) (dst src size : ℕ) : Memory UInt8 × ℕ :=
  if size > 0 then
    let (m, d) := strlcpyLoop m dst src (size - 1)
    (Function.update m d 0, d - dst)
  else (m, 0)

theorem strlcpyLoop_eq {size d : ℕ} (h : HoldsString m p s) (hd : d + size ≤ p ∨ p + s.length < d) :
    (strlcpyLoop m d p size).2 = d + (s.take size).length ∧
      (∀ i (hi : i < (s.take size).length),
        (strlcpyLoop m d p size).1 (d + i) = (s.take size)[i]) ∧
      ∀ a, (a < d ∨ d + (s.take size).length ≤ a) → (strlcpyLoop m d p size).1 a = m a := by
  induction size generalizing m d p s with
  | zero => simp [strlcpyLoop]
  | succ size ih =>
    cases s with
    | nil => simp [strlcpyLoop, HoldsString.nil_iff.1 h]
    | cons c s =>
      obtain ⟨hhead, hc, hrest⟩ := HoldsString.cons_iff.1 h
      rw [List.length_cons] at hd
      have hsame : ∀ a, p + 1 ≤ a → a ≤ p + 1 + s.length → Function.update m d c a = m a := by
        intro a hlow hhigh
        exact Function.update_of_ne (by omega) _ _
      obtain ⟨hend, hcopied, hframe⟩ :=
        ih (d := d + 1) (hrest.congr hsame) (by omega)
      rw [strlcpyLoop, hhead, if_pos hc]
      simp only [List.take_succ_cons, List.length_cons]
      refine ⟨by omega, fun i hi => ?_, fun a ha => ?_⟩
      · cases i with
        | zero =>
          rw [hframe _ (by omega)]
          exact Function.update_self ..
        | succ i =>
          have hnext := hcopied i (by omega)
          rw [Nat.add_right_comm, Nat.add_assoc] at hnext
          exact hnext
      · rw [hframe a (by omega)]
        exact Function.update_of_ne (by omega) _ _

/-- As much of the string as there is room for comes to `dst`, with a zero behind it, and nothing
else changes. What is returned is how much came, and not how much was there. -/
theorem strlcpy_spec {size d : ℕ} (h : HoldsString m p s) (hsize : 0 < size)
    (hd : d + size ≤ p ∨ p + s.length < d) :
    HoldsString (strlcpy m d p size).1 d (s.take (size - 1)) ∧
      (strlcpy m d p size).2 = min (size - 1) s.length ∧
      ∀ a, (a < d ∨ d + size ≤ a) → (strlcpy m d p size).1 a = m a := by
  obtain ⟨hend, hcopied, hframe⟩ :=
    strlcpyLoop_eq h (by omega : d + (size - 1) ≤ p ∨ p + s.length < d)
  have hlength : (s.take (size - 1)).length ≤ size - 1 := List.length_take_le ..
  rw [strlcpy, if_pos hsize]
  dsimp only
  rw [hend]
  refine ⟨⟨fun i hi => ?_, fun hnul => ?_, ?_⟩, ?_, fun a ha => ?_⟩
  · rw [Function.update_of_ne (by omega)]
    exact hcopied i hi
  · exact h.noNul (List.mem_of_mem_take hnul)
  · exact Function.update_self ..
  · rw [Nat.add_sub_cancel_left, List.length_take]
  · rw [Function.update_of_ne (by omega), hframe a (by omega)]

theorem holdsString_abc : HoldsString (fun a => [97, 98, 99].getD a 0) 0 [97, 98, 99] :=
  HoldsString.const (by decide)

theorem strlcpy_spec_abc :
    HoldsString (strlcpy (fun a => [97, 98, 99].getD a 0) 8 0 3).1 8 [97, 98] ∧
      (strlcpy (fun a => [97, 98, 99].getD a 0) 8 0 3).2 = 2 ∧
      ∀ a, (a < 8 ∨ 11 ≤ a) → (strlcpy (fun a => [97, 98, 99].getD a 0) 8 0 3).1 a =
        [97, 98, 99].getD a 0 :=
  strlcpy_spec holdsString_abc (by decide) (.inr (by decide))

/-! ## Numbers -/

/-- `dig`, where `none` breaks the loop. -/
def digitOf (c : UInt8) : Option ℕ :=
  if 48 ≤ c ∧ c ≤ 57 then some (c.toNat - 48)
  else if 97 ≤ c ∧ c ≤ 122 then some (c.toNat - 97 + 10)
  else if 65 ≤ c ∧ c ≤ 90 then some (c.toNat - 65 + 10)
  else none

/-- The loop over the digits; overflow is not detected. -/
@[grind]
def strtolDigits (m : Memory UInt8) (base : ℕ) : ℕ → BitVec 32 → ℕ → Option (BitVec 32 × ℕ)
  | 0, _, _ => none
  | fuel + 1, val, s =>
    match digitOf (m s) with
    | none => some (val, s)
    | some dig =>
      if dig ≥ base then some (val, s)
      else strtolDigits m base fuel (val * BitVec.ofNat 32 base + BitVec.ofNat 32 dig) (s + 1)

/-- `strtol`, with what it stores in `endptr`. -/
def strtol (m : Memory UInt8) (fuel s base : ℕ) : Option (BitVec 32 × ℕ) := do
  let s ← seek (fun c => !(c = 32 || c = 9)) m fuel s
  let neg := m s = 45
  let s := if m s = 43 then s + 1 else if m s = 45 then s + 1 else s
  let (s, base) :=
    if (base = 0 ∨ base = 16) ∧ m s = 48 ∧ m (s + 1) = 120 then (s + 2, 16)
    else if base = 0 ∧ m s = 48 then (s + 1, 8)
    else if base = 0 then (s, 10)
    else (s, base)
  let (val, s) ← strtolDigits m base fuel 0 s
  return (if neg then -val else val, s)

/-- The bytes of a text. -/
def toBytes (t : Text) : List UInt8 := t.map fun c => UInt8.ofNat c.toNat

theorem digitOf_digitChar {d : ℕ} (h : d < 16) :
    digitOf (UInt8.ofNat (digitChar d).toNat) = some d := by
  interval_cases d <;> rfl

/-- A digit is no space, no sign and not the `x` of a prefix. -/
theorem digitChar_ne {d : ℕ} (h : d < 16) :
    ∀ c ∈ [32, 9, 43, 45, 120], UInt8.ofNat (digitChar d).toNat ≠ c := by
  interval_cases d <;> decide +kernel

theorem strtolDigits_eq {base fuel : ℕ} {ds : List ℕ} (n : ℕ) (hbase : base ≤ 16)
    (hds : ∀ d ∈ ds, d < base) (h : HoldsString m p (toBytes (ds.map digitChar)))
    (hfuel : ds.length < fuel) :
    strtolDigits m base fuel (BitVec.ofNat 32 n) p =
      some (BitVec.ofNat 32 (ds.foldl (fun k d => k * base + d) n), p + ds.length) := by
  induction ds generalizing n p fuel with
  | nil =>
    obtain ⟨fuel, rfl⟩ : ∃ k, fuel = k + 1 := Nat.exists_eq_succ_of_ne_zero (by omega)
    rw [strtolDigits, HoldsString.nil_iff.1 h]
    rfl
  | cons d ds ih =>
    obtain ⟨fuel, rfl⟩ : ∃ k, fuel = k + 1 := Nat.exists_eq_succ_of_ne_zero (by omega)
    obtain ⟨hhead, -, hrest⟩ := HoldsString.cons_iff.1 h
    have hd := hds d List.mem_cons_self
    have hnext := ih (n * base + d) (fun e he => hds e (List.mem_cons_of_mem d he)) hrest
      (by simpa using hfuel)
    rw [strtolDigits, hhead, digitOf_digitChar (by omega)]
    dsimp only
    rw [if_neg (by omega), ← BitVec.ofNat_mul, ← BitVec.ofNat_add, hnext, List.foldl_cons,
      List.length_cons, Nat.add_assoc, Nat.add_comm 1]

/-- With a base that is given and no `0x` in front, the digits start right after the sign. -/
theorem strtol_of_digits {base fuel q r : ℕ} {val : BitVec 32} (hbase : base ≠ 0)
    (hseek : seek (fun c => !(c = 32 || c = 9)) m fuel p = some q) (hplus : m q ≠ 43)
    (hsecond : m (q + (if m q = 45 then 1 else 0) + 1) ≠ 120)
    (hvalue : strtolDigits m base fuel 0 (q + if m q = 45 then 1 else 0) = some (val, r)) :
    strtol m fuel p base = some (if m q = 45 then -val else val, r) := by
  have hhex : ∀ a, m (a + 1) ≠ 120 →
      ¬ ((base = 0 ∨ base = 16) ∧ m a = 48 ∧ m (a + 1) = 120) :=
    fun a hx hprefix => hx hprefix.2.2
  have hoctal : ∀ a, ¬ (base = 0 ∧ m a = 48) := fun a hboth => hbase hboth.1
  unfold strtol
  rw [hseek]
  simp only [Option.bind_eq_bind, Option.bind_some]
  rw [if_neg hplus]
  by_cases hminus : m q = 45
  · rw [if_pos hminus] at hsecond hvalue
    rw [if_pos hminus, if_neg (hhex _ hsecond), if_neg (hoctal _), if_neg hbase]
    dsimp only
    rw [hvalue]
    simp [hminus]
  · rw [if_neg hminus] at hsecond hvalue
    rw [if_neg hminus, if_neg (hhex _ hsecond), if_neg (hoctal _), if_neg hbase]
    dsimp only
    rw [← Nat.add_zero q, hvalue]
    simp [hminus]

/-- Behind a digit stands another digit or the end, but no `x`. -/
theorem HoldsString.second_ne {d : ℕ} {ds : List ℕ} (hds : ∀ e ∈ ds, e < 16)
    (h : HoldsString m p (toBytes ((d :: ds).map digitChar))) : m (p + 1) ≠ 120 := by
  have hlater := (HoldsString.cons_iff.1 h).2.2
  cases ds with
  | nil =>
    rw [HoldsString.nil_iff.1 hlater]
    decide
  | cons e ds =>
    rw [(HoldsString.cons_iff.1 hlater).1]
    exact digitChar_ne (hds e List.mem_cons_self) 120 (by simp)

/-- What comes before the digits: spaces, and then perhaps a minus sign. -/
theorem strtol_eq {base fuel spaces : ℕ} {ds : List ℕ} (neg : Bool) (hlow : 1 < base)
    (hbase : base ≤ 16) (hne : ds ≠ []) (hds : ∀ d ∈ ds, d < base)
    (h : HoldsString m p (List.replicate spaces 32 ++
      ((if neg then [45] else []) ++ toBytes (ds.map digitChar))))
    (hfuel : spaces + 1 + ds.length < fuel) :
    strtol m fuel p base =
      some (if neg then -BitVec.ofNat 32 (ds.foldl (fun k d => k * base + d) 0)
          else BitVec.ofNat 32 (ds.foldl (fun k d => k * base + d) 0),
        p + spaces + (if neg then 1 else 0) + ds.length) := by
  obtain ⟨d, rest, rfl⟩ := List.exists_cons_of_ne_nil hne
  have hd := hds d List.mem_cons_self
  have hchar := digitChar_ne (show d < 16 by omega)
  have hspaces := h.append
  rw [List.length_replicate] at hspaces
  have hseek : seek (fun c => !(c = 32 || c = 9)) m fuel p = some (p + spaces) := by
    rw [seek_eq h rfl (by cases neg <;> simp [toBytes] at hfuel ⊢ <;> omega)]
    cases neg <;> simp [toBytes, hchar]
  have hdigits : HoldsString m (p + spaces + if neg then 1 else 0)
      (toBytes ((d :: rest).map digitChar)) := by
    have hlater := hspaces.append
    cases neg <;> exact hlater
  have hfirst := (HoldsString.cons_iff.1 hdigits).1
  have hsign : m (p + spaces) ≠ 43 ∧ (m (p + spaces) = 45 ↔ neg = true) := by
    cases neg with
    | false =>
      rw [show m (p + spaces) = _ from hfirst]
      exact ⟨hchar 43 (by simp), fun hminus => absurd hminus (hchar 45 (by simp)), nofun⟩
    | true =>
      rw [show m (p + spaces) = 45 from (HoldsString.cons_iff.1 hspaces).1]
      exact ⟨by decide, fun _ => rfl, fun _ => rfl⟩
  have hsecond := hdigits.second_ne fun e he =>
    (hds e (List.mem_cons_of_mem d he)).trans_le hbase
  have hvalue : strtolDigits m base fuel 0 _ = _ :=
    strtolDigits_eq 0 hbase hds hdigits (by omega)
  have hread := strtol_of_digits (show base ≠ 0 by omega) hseek hsign.1
    (by simpa only [hsign.2] using hsecond) (by simpa only [hsign.2] using hvalue)
  simpa only [hsign.2] using hread

theorem foldl_zeros (base pad : ℕ) :
    (List.replicate pad 0).foldl (fun k d => k * base + d) 0 = 0 := by
  induction pad with
  | zero => rfl
  | succ pad ih => rw [List.replicate_succ, List.foldl_cons, Nat.zero_mul, ih]

/-- Pad characters do no harm: spaces are skipped in front of the sign, and zeros count nothing. -/
theorem strtol_padded {base fuel pad n : ℕ} {padc : Char} (neg : Bool) (hlow : 1 < base)
    (hbase : base ≤ 16) (hpad : padc = '0' ∨ padc = ' ' ∧ neg = false ∨ pad = 0)
    (h : HoldsString m p (toBytes ((if neg then ['-'] else []) ++
      (List.replicate pad padc ++ digitText base n))))
    (hfuel : pad + 1 + (digitText base n).length < fuel) :
    strtol m fuel p base =
      some (if neg then -BitVec.ofNat 32 n else BitVec.ofNat 32 n,
        p + (if neg then 1 else 0) + pad + (digitText base n).length) := by
  have hlength : (digitText base n).length = (numeral base n).length := List.length_map ..
  have hdigits : ∀ d ∈ numeral base n, d < base := fun d hd => lt_of_mem_numeral hlow hd
  have hne : numeral base n ≠ [] := List.ne_nil_of_length_pos (length_numeral_pos base n)
  have hvalue := foldl_numeral (n := n) hlow
  rw [hlength] at hfuel ⊢
  by_cases hspaces : padc = ' ' ∧ neg = false
  · obtain ⟨rfl, rfl⟩ := hspaces
    have hread := strtol_eq false hlow hbase hne hdigits
      (by simpa [toBytes, digitText] using h) hfuel
    rw [hvalue] at hread
    rw [hread]
    simp
  · have hzeros : HoldsString m p (List.replicate 0 32 ++ ((if neg then [45] else []) ++
        toBytes ((List.replicate pad 0 ++ numeral base n).map digitChar))) := by
      have hpadc : List.replicate pad padc = List.replicate pad '0' := by
        obtain rfl | hboth | rfl := hpad
        · rfl
        · exact absurd hboth hspaces
        · rfl
      rw [hpadc] at h
      cases neg <;> simpa [toBytes, digitText, digitChar, hexDigits] using h
    have hread : strtol m fuel p base = _ := strtol_eq neg hlow hbase (by simp [hne])
      (by
        intro d hd
        obtain hd | hd := List.mem_append.1 hd
        · rw [List.eq_of_mem_replicate hd]
          omega
        · exact hdigits d hd)
      hzeros (by simp; omega)
    rw [List.foldl_append, foldl_zeros, hvalue] at hread
    rw [hread]
    simp [Nat.add_assoc]

/-- The pad character and the width do not keep `strtol` from a printed number: between a minus
sign and the digits there are no spaces. -/
def Readable (v : Vars) (negative : Bool) : Prop :=
  -1 ≤ v.width ∧ v.width < 2 ^ 31 ∧
    (v.padc = '0' ∨ v.padc = ' ' ∧ (negative = false ∨ v.width ≤ 1))

theorem strtol_printnum {base num fuel : ℕ} {v : Vars} (neg : Bool) (hlow : 1 < base)
    (hbase : base ≤ 16) (hnum : num < 2 ^ 64) (hv : Readable v neg)
    (h : HoldsString m p
      (toBytes ((if neg then ['-'] else []) ++ printnum num base hlow v.width v.padc)))
    (hfuel : (printnum num base hlow v.width v.padc).length + 1 < fuel) :
    strtol m fuel p base =
      some (if neg then -BitVec.ofNat 32 num else BitVec.ofNat 32 num,
        p + (if neg then 1 else 0) + (printnum num base hlow v.width v.padc).length) := by
  obtain ⟨hwidth, hlt, hpadc⟩ := hv
  have hpos := length_digitText_pos base num
  have hle := length_digitText_le hlow hnum
  rw [printnum_eq hlow (by omega) hlt] at h hfuel ⊢
  rw [List.length_append, List.length_replicate] at hfuel ⊢
  have hpad : v.padc = '0' ∨ v.padc = ' ' ∧ neg = false ∨
      (v.width - (digitText base num).length).toNat = 0 := by
    obtain hzero | ⟨hspace, hpositive | hnarrow⟩ := hpadc
    · exact .inl hzero
    · exact .inr (.inl ⟨hspace, hpositive⟩)
    · exact .inr (.inr (by omega))
  rw [strtol_padded neg hlow hbase hpad h (by omega), Nat.add_assoc]

/-- What `%d` prints of a number is read as the number, up to the bits that a `long` has. -/
theorem strtol_formatSigned {v : Vars} {num : BitVec 64} {fuel : ℕ}
    (hv : Readable v (decide (num.toInt < 0)))
    (h : HoldsString m p (toBytes (formatSigned v num)))
    (hfuel : (formatSigned v num).length + 1 < fuel) :
    strtol m fuel p 10 =
      some (num.setWidth 32, p + (formatSigned v num).length) := by
  have hten : 1 < 10 := Nat.one_lt_ofNat
  unfold formatSigned at h hfuel ⊢
  by_cases hneg : num.toInt < 0
  · rw [if_pos hneg] at h hfuel ⊢
    rw [decide_eq_true hneg] at hv
    rw [strtol_printnum true hten (by decide) (-num).isLt hv h (Nat.lt_of_succ_lt hfuel)]
    rw [if_pos rfl, if_pos rfl, BitVec.ofNat_toNat, BitVec.setWidth_neg_of_le (by decide),
      BitVec.neg_neg, List.length_cons, Nat.add_assoc, Nat.add_comm 1]
  · rw [if_neg hneg] at h hfuel ⊢
    rw [decide_eq_false hneg] at hv
    rw [strtol_printnum false hten (by decide) num.isLt hv h hfuel]
    rw [if_neg Bool.false_ne_true, if_neg Bool.false_ne_true, BitVec.ofNat_toNat, Nat.add_zero]

theorem formatSigned_neg : toBytes (formatSigned {} (-12#64)) = [45, 49, 50] := by
  rw [formatSigned, if_pos (by decide)]
  rw [printnum_eq (by decide) (by decide) (by decide)]
  decide

theorem holdsString_neg : HoldsString (fun a => [45, 49, 50].getD a 0) 0 [45, 49, 50] :=
  HoldsString.const (by decide)

theorem strtol_formatSigned_neg :
    strtol (fun a => [45, 49, 50].getD a 0) 8 0 10 =
      some ((-12#64).setWidth 32, 0 + (formatSigned {} (-12#64)).length) :=
  strtol_formatSigned ⟨by decide, by decide, .inr ⟨rfl, .inr (by decide)⟩⟩
    (formatSigned_neg ▸ holdsString_neg)
    (by
      have hlength := congrArg List.length formatSigned_neg
      rw [toBytes, List.length_map] at hlength
      rw [hlength]
      decide)

end Strings

end Courses.Jos.Strings
