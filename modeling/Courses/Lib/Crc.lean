import Mathlib.Logic.Function.Iterate
import Mathlib.Data.List.Basic

/-!
# Cyclic redundancy codes

The remainder register of a reflected code of any width: a bit enters at the low end,
the register moves down by one place and the polynomial is added when a one falls out.
A bit may as well be added before the shifts that bring its place to the low end
(`foldl_foldBit`), and no shift forgets anything (`shift_injective`); so two messages that
differ only within one register width have different remainders (`foldl_foldBit_burst`).
-/
namespace Courses.Lib.Crc

variable {w : ℕ} (poly : BitVec w)

/-- The register moved down by one place. -/
def shift (s : BitVec w) : BitVec w := (s >>> 1) ^^^ (if s.getLsbD 0 then poly else 0)

/-- A bit at the low end of the register. -/
def lowBit (w : ℕ) (b : Bool) : BitVec w := if b then 1#w else 0#w

def foldBit (s : BitVec w) (b : Bool) : BitVec w := shift poly (s ^^^ lowBit w b)

/-- A register with the given bits, from the low end on. -/
def ofBits (w : ℕ) : List Bool → BitVec w
  | [] => 0#w
  | b :: bs => (ofBits w bs <<< 1) ^^^ lowBit w b

theorem getLsbD_lowBit (b : Bool) (i : ℕ) :
    (lowBit w b).getLsbD i = (decide (i < w) && (decide (i = 0) && b)) := by
  cases b
  · simp [lowBit]
  · cases w with
    | zero => simp [lowBit]
    | succ w => cases i <;> simp [lowBit, BitVec.getLsbD_one]

theorem getLsbD_ofBits (bs : List Bool) (i : ℕ) :
    (ofBits w bs).getLsbD i = (decide (i < w) && bs[i]?.getD false) := by
  induction bs generalizing i with
  | nil => simp [ofBits]
  | cons b bs ih =>
    rw [ofBits, BitVec.getLsbD_xor, BitVec.getLsbD_shiftLeft, ih, getLsbD_lowBit]
    cases i with
    | zero => simp
    | succ i =>
      by_cases h : i + 1 < w
      · simp [h, show i < w by omega]
      · simp [h]

theorem ofBits_injective {bs cs : List Bool} (hlen : bs.length = cs.length) (hw : bs.length ≤ w)
    (h : ofBits w bs = ofBits w cs) : bs = cs := by
  apply List.ext_getElem hlen
  intro i hi hi'
  have hbit := congrArg (fun v => BitVec.getLsbD v i) h
  have hiw : i < w := by omega
  simp only [getLsbD_ofBits, hiw, decide_true, Bool.true_and, List.getElem?_eq_getElem hi,
    List.getElem?_eq_getElem hi', Option.getD_some] at hbit
  exact hbit

/-- What stands above the low end only moves down. -/
theorem shift_xor_shiftLeft (a h : BitVec w) (hmsb : h.getLsbD (w - 1) = false) :
    shift poly (a ^^^ (h <<< 1)) = shift poly a ^^^ h := by
  have hlow : (a ^^^ (h <<< 1)).getLsbD 0 = a.getLsbD 0 := by simp
  have hdown : (h <<< 1) >>> 1 = h := by
    apply BitVec.eq_of_getLsbD_eq
    intro i hi
    rw [BitVec.getLsbD_ushiftRight, BitVec.getLsbD_shiftLeft]
    by_cases htop : 1 + i < w
    · simp [htop]
    · rw [show i = w - 1 by omega, hmsb, decide_eq_false (by omega), Bool.false_and, Bool.false_and]
  rw [shift, shift, hlow, BitVec.ushiftRight_xor_distrib, hdown, BitVec.xor_assoc, BitVec.xor_assoc,
    BitVec.xor_comm h]

theorem shift_iterate_xor_shiftLeft (n : ℕ) (a h : BitVec w)
    (htop : ∀ i, w ≤ i + n → h.getLsbD i = false) :
    (shift poly)^[n] (a ^^^ (h <<< n)) = (shift poly)^[n] a ^^^ h := by
  induction n generalizing a with
  | zero => simp
  | succ n ih =>
    have hmsb : (h <<< n).getLsbD (w - 1) = false := by
      rw [BitVec.getLsbD_shiftLeft, htop (w - 1 - n) (by omega), Bool.and_false]
    rw [Function.iterate_succ_apply, Function.iterate_succ_apply, BitVec.shiftLeft_add,
      shift_xor_shiftLeft poly a _ hmsb]
    exact ih _ fun i hi => htop i (by omega)

/-- Bits folded one after the other may be added to the register all at once. -/
theorem foldl_foldBit (bs : List Bool) (s : BitVec w) (hw : bs.length ≤ w) :
    bs.foldl (foldBit poly) s = (shift poly)^[bs.length] (s ^^^ ofBits w bs) := by
  induction bs generalizing s with
  | nil => simp [ofBits]
  | cons b bs ih =>
    rw [List.length_cons] at hw
    have hmsb : (ofBits w bs).getLsbD (w - 1) = false := by
      rw [getLsbD_ofBits, List.getElem?_eq_none (by omega)]
      simp
    rw [List.foldl_cons, ih _ (by omega), List.length_cons, Function.iterate_succ_apply, foldBit,
      ← shift_xor_shiftLeft poly _ _ hmsb, ofBits, BitVec.xor_assoc,
      BitVec.xor_comm (lowBit w b)]

/-- The bit that falls out is seen in the highest place, so nothing is lost. -/
theorem shift_injective (hpoly : poly.getLsbD (w - 1) = true) :
    Function.Injective (shift poly) := by
  intro a b hab
  have hw : 0 < w := by
    rcases Nat.eq_zero_or_pos w with rfl | hw
    · simp at hpoly
    · exact hw
  have htop (s : BitVec w) : (shift poly s).getLsbD (w - 1) = s.getLsbD 0 := by
    rw [shift, BitVec.getLsbD_xor, BitVec.getLsbD_ushiftRight, BitVec.getLsbD_of_ge _ _ (by omega)]
    cases s.getLsbD 0 <;> simp [hpoly]
  have hlow : a.getLsbD 0 = b.getLsbD 0 := by rw [← htop a, ← htop b, hab]
  have hrest : a >>> 1 = b >>> 1 := by
    rw [shift, shift, hlow] at hab
    exact (BitVec.xor_left_inj _).1 hab
  apply BitVec.eq_of_getLsbD_eq
  intro i hi
  cases i with
  | zero => exact hlow
  | succ i =>
    have hbit := congrArg (fun v => BitVec.getLsbD v i) hrest
    simpa [Nat.add_comm] using hbit

theorem foldBit_injective (hpoly : poly.getLsbD (w - 1) = true) (b : Bool) :
    Function.Injective fun s => foldBit poly s b := by
  intro s t hst
  exact (BitVec.xor_left_inj _).1 (shift_injective poly hpoly hst)

theorem foldl_foldBit_injective (hpoly : poly.getLsbD (w - 1) = true) (bs : List Bool) :
    Function.Injective fun s => bs.foldl (foldBit poly) s := by
  induction bs with
  | nil => exact fun _ _ h => h
  | cons b bs ih => exact ih.comp (foldBit_injective poly hpoly b)

/-- Two messages that differ, and only within `w` consecutive bits, are told apart. -/
theorem foldl_foldBit_burst (hpoly : poly.getLsbD (w - 1) = true) {p : ℕ} {bs cs : List Bool}
    (hlen : bs.length = cs.length) (hne : bs ≠ cs)
    (hburst : ∀ i, i < p ∨ p + w ≤ i → bs[i]? = cs[i]?) (s : BitVec w) :
    bs.foldl (foldBit poly) s ≠ cs.foldl (foldBit poly) s := by
  have hbefore : bs.take p = cs.take p := by
    apply List.ext_getElem?
    intro i
    by_cases hi : i < p
    · rw [List.getElem?_take_of_lt hi, List.getElem?_take_of_lt hi, hburst i (.inl hi)]
    · rw [List.getElem?_take_eq_none (by omega), List.getElem?_take_eq_none (by omega)]
  have hafter : (bs.drop p).drop w = (cs.drop p).drop w := by
    apply List.ext_getElem?
    intro i
    simp only [List.getElem?_drop]
    exact hburst _ (.inr (by omega))
  have hsplit (xs : List Bool) : xs = xs.take p ++ ((xs.drop p).take w ++ (xs.drop p).drop w) := by
    rw [List.take_append_drop, List.take_append_drop]
  intro heq
  rw [hsplit bs, hsplit cs, List.foldl_append, List.foldl_append, List.foldl_append,
    List.foldl_append, hbefore, hafter] at heq
  have hmid := foldl_foldBit_injective poly hpoly _ heq
  have hmidlen : ((bs.drop p).take w).length = ((cs.drop p).take w).length := by
    simp [hlen]
  -- the differing bits all enter the register before the first of them leaves it
  rw [foldl_foldBit poly _ _ (List.length_take_le _ _),
    foldl_foldBit poly (List.take w _) _ (List.length_take_le _ _), hmidlen] at hmid
  have hword := (shift_injective poly hpoly).iterate _ hmid
  have hbits := ofBits_injective hmidlen (List.length_take_le _ _) ((BitVec.xor_right_inj _).1 hword)
  apply hne
  rw [hsplit bs, hsplit cs, hbefore, hafter, hbits]

end Courses.Lib.Crc
