import Courses.Scheme.Reader
import Mathlib

/-!
# Lower case

The tokenizer puts symbols into lower case. A text made of the characters of symbols is a
number in the same cases as its lower case.
-/
namespace Courses.Scheme

/-! ## Lower case -/

theorem upper_cases {c : Char} (h : c.isUpper = true) : ∃ n < 26, c = Char.ofNat (65 + n) := by
  have hbounds : 65 ≤ c.toNat ∧ c.toNat ≤ 90 := by
    simp only [Char.isUpper, decide_eq_true_eq, UInt32.le_iff_toNat_le, ge_iff_le] at h
    exact h
  refine ⟨c.toNat - 65, by omega, ?_⟩
  rw [Nat.add_sub_cancel' hbounds.1, Char.ofNat_toNat]

theorem isLower_lowerChar {c : Char} (h : c.isUpper = true) : (lowerChar c).isLower = true := by
  obtain ⟨n, hn, rfl⟩ := upper_cases h
  have hall : ∀ n < 26, (lowerChar (Char.ofNat (65 + n))).isLower = true := by decide
  exact hall n hn

theorem lowerChar_of_not_upper {c : Char} (h : c.isUpper = false) : lowerChar c = c := by
  simp [lowerChar, h]

theorem isUpper_lowerChar (c : Char) : (lowerChar c).isUpper = false := by
  cases h : c.isUpper with
  | false => rw [lowerChar_of_not_upper h, h]
  | true =>
    obtain ⟨n, hn, rfl⟩ := upper_cases h
    have hall : ∀ n < 26, (lowerChar (Char.ofNat (65 + n))).isUpper = false := by decide
    exact hall n hn

@[simp] theorem lowerChar_lowerChar (c : Char) : lowerChar (lowerChar c) = lowerChar c :=
  lowerChar_of_not_upper (isUpper_lowerChar c)

@[simp] theorem lower_lower (text : Text) : lower (lower text) = lower text := by
  simp [lower]

/-- Only a letter is in lower case what another character is. -/
theorem lowerChar_eq_iff {c d : Char} (hd : d.isAlpha = false) : lowerChar c = d ↔ c = d := by
  cases h : c.isUpper with
  | false => rw [lowerChar_of_not_upper h]
  | true =>
    have hc : c ≠ d := by
      rintro rfl
      simp [Char.isAlpha, h] at hd
    have hlower : lowerChar c ≠ d := by
      rintro rfl
      simp [Char.isAlpha, isLower_lowerChar h] at hd
    simp [hc, hlower]

theorem symbolChar_lowerChar {c : Char} (h : symbolChar c = true) :
    symbolChar (lowerChar c) = true := by
  cases hu : c.isUpper with
  | false => rwa [lowerChar_of_not_upper hu]
  | true => simp [symbolChar, Char.isAlpha, isLower_lowerChar hu]

theorem numeralStart_lowerChar (c : Char) : numeralStart (lowerChar c) = numeralStart c := by
  cases h : c.isUpper with
  | false => rw [lowerChar_of_not_upper h]
  | true =>
    obtain ⟨n, hn, rfl⟩ := upper_cases h
    have hall : ∀ n < 26, numeralStart (lowerChar (Char.ofNat (65 + n))) =
        numeralStart (Char.ofNat (65 + n)) := by decide
    exact hall n hn

theorem all_symbolChar_lower {text : Text} (h : text.all symbolChar = true) :
    (lower text).all symbolChar = true := by
  rw [lower, List.all_map, List.all_eq_true]
  intro c hc
  exact symbolChar_lowerChar (List.all_eq_true.1 h c hc)

theorem validSymbol_lower {text : Text} (h : validSymbol text = true) :
    validSymbol (lower text) = true := by
  simp only [validSymbol, Bool.and_eq_true] at h ⊢
  exact ⟨by simpa [lower] using h.1, all_symbolChar_lower h.2⟩

/-! ## Numbers in lower case -/

namespace Python

variable (P : Python)

theorem decimal_lowerChar {c : Char} (h : symbolChar c = true) :
    P.decimal (lowerChar c) = P.decimal c := by
  cases hu : c.isUpper with
  | false => rw [lowerChar_of_not_upper hu]
  | true =>
    have hdigit : c.isDigit = false ∧ (lowerChar c).isDigit = false := by
      obtain ⟨n, hn, rfl⟩ := upper_cases hu
      have hall : ∀ n < 26, (Char.ofNat (65 + n)).isDigit = false ∧
          (lowerChar (Char.ofNat (65 + n))).isDigit = false := by decide
      exact hall n hn
    rw [P.decimal_symbolChar c h hdigit.1,
      P.decimal_symbolChar _ (symbolChar_lowerChar h) hdigit.2]

theorem dropWhile_space {text : Text} (h : text.all symbolChar = true) :
    text.dropWhile P.space = text := by
  cases text with
  | nil => rfl
  | cons c text =>
    have hc : P.space c = false := P.space_symbolChar c (List.all_eq_true.1 h c (by simp))
    rw [List.dropWhile_cons, hc]
    simp

theorem strip_symbol {text : Text} (h : text.all symbolChar = true) : P.strip text = text := by
  rw [strip, P.dropWhile_space h, P.dropWhile_space (by simpa using h), List.reverse_reverse]

theorem digitPart_lower : ∀ {text : Text}, text.all symbolChar = true →
    P.digitPart (lower text) = P.digitPart text
  | [], _ => rfl
  | [c], h => by
    simp only [lower, List.map_cons, List.map_nil, digitPart]
    rw [P.decimal_lowerChar (by simpa using h)]
  | c :: d :: text, h => by
    have hc : symbolChar c = true := by simp_all
    have hrest : (d :: text).all symbolChar = true := by simp_all
    have htext : text.all symbolChar = true := by simp_all
    have hd : lowerChar d = '_' ↔ d = '_' := lowerChar_eq_iff (by decide)
    have ihd := digitPart_lower hrest
    have iht := digitPart_lower htext
    simp only [lower, List.map_cons] at ihd iht ⊢
    simp only [digitPart, P.decimal_lowerChar hc, hd, ihd, iht]

theorem splitSign_lower (text : Text) :
    splitSign (lower text) = ((splitSign text).1, lower (splitSign text).2) := by
  cases text with
  | nil => rfl
  | cons c text =>
    have hminus : lowerChar c = '-' ↔ c = '-' := lowerChar_eq_iff (by decide)
    have hplus : lowerChar c = '+' ↔ c = '+' := lowerChar_eq_iff (by decide)
    simp only [lower, List.map_cons, splitSign, hminus, hplus]
    split_ifs <;> simp

theorem all_splitSign {text : Text} {p : Char → Bool} (h : text.all p = true) :
    (splitSign text).2.all p = true := by
  cases text with
  | nil => simp [splitSign]
  | cons c text =>
    simp only [splitSign]
    split_ifs <;> simp_all

theorem int_lower {text : Text} (h : text.all symbolChar = true) :
    P.int (lower text) = P.int text := by
  simp only [int, P.strip_symbol h, P.strip_symbol (all_symbolChar_lower h), splitSign_lower,
    P.digitPart_lower (all_splitSign h)]

theorem dropWhile_lower {p : Char → Bool} (hp : ∀ c, p (lowerChar c) = p c) (text : Text) :
    (lower text).dropWhile p = lower (text.dropWhile p) := by
  rw [lower, List.dropWhile_map]
  simp only [Function.comp_def, hp, lower]

theorem takeWhile_lower {p : Char → Bool} (hp : ∀ c, p (lowerChar c) = p c) (text : Text) :
    (lower text).takeWhile p = lower (text.takeWhile p) := by
  rw [lower, List.takeWhile_map]
  simp only [Function.comp_def, hp, lower]

theorem digitPartOpt_lower {text : Text} (h : text.all symbolChar = true) :
    P.digitPartOpt (lower text) = P.digitPartOpt text := by
  rw [digitPartOpt, digitPartOpt, P.digitPart_lower h]
  simp [lower]

theorem all_of_dropWhile {p q : Char → Bool} {text rest : Text} {c : Char}
    (h : text.all p = true) (heq : text.dropWhile q = c :: rest) : rest.all p = true := by
  have hall : (text.dropWhile q).all p = true := by
    rw [List.all_eq_true] at h ⊢
    intro d hd
    exact h d ((List.dropWhile_sublist q).subset hd)
  rw [heq] at hall
  simp_all

theorem all_takeWhile {p q : Char → Bool} {text : Text} (h : text.all p = true) :
    (text.takeWhile q).all p = true := by
  rw [List.all_eq_true] at h ⊢
  intro d hd
  exact h d ((List.takeWhile_sublist q).subset hd)

theorem mantissa_lower {text : Text} (h : text.all symbolChar = true) :
    P.mantissa (lower text) = P.mantissa text := by
  have hp : ∀ c, (fun d : Char => decide (d ≠ '.')) (lowerChar c) =
      (fun d : Char => decide (d ≠ '.')) c := by
    intro c
    simp [lowerChar_eq_iff (c := c) (d := '.') (by decide)]
  unfold mantissa
  rw [dropWhile_lower hp, takeWhile_lower hp]
  cases heq : text.dropWhile (· ≠ '.') with
  | nil =>
    change (P.digitPart (lower text)).isSome = _
    rw [P.digitPart_lower h]
  | cons c fraction =>
    have hwhole := P.digitPartOpt_lower (all_takeWhile (q := (· ≠ '.')) h)
    have hfraction := P.digitPartOpt_lower (all_of_dropWhile h heq)
    change (P.digitPartOpt _ && P.digitPartOpt (lower fraction) && _) = _
    rw [hwhole, hfraction]
    simp [lower]

theorem isFloat_lower {text : Text} (h : text.all symbolChar = true) :
    P.isFloat (lower text) = P.isFloat text := by
  have hbody := all_splitSign h
  simp only [isFloat, P.strip_symbol h, P.strip_symbol (all_symbolChar_lower h), splitSign_lower,
    lower_lower]
  generalize (splitSign text).2 = body at hbody
  split_ifs
  · rfl
  · have hp : ∀ c, (fun d => decide (lowerChar d ≠ 'e')) (lowerChar c) =
        (fun d => decide (lowerChar d ≠ 'e')) c := by
      simp
    rw [dropWhile_lower hp, takeWhile_lower hp]
    cases heq : body.dropWhile (lowerChar · ≠ 'e') with
    | nil => exact P.mantissa_lower hbody
    | cons c exponent =>
      have hexponent := all_of_dropWhile hbody heq
      change (P.mantissa _ && (P.digitPart (splitSign (lower exponent)).2).isSome) = _
      rw [P.mantissa_lower (all_takeWhile hbody), splitSign_lower,
        P.digitPart_lower (all_splitSign hexponent)]

end Python

variable (P : Python)

theorem number_lower {text : Text} (h : text.all symbolChar = true) (hnone : number P text = none) :
    number P (lower text) = none := by
  have hhead : (lower text).head?.any numeralStart = text.head?.any numeralStart := by
    cases text with
    | nil => rfl
    | cons c text => simp [lower, numeralStart_lowerChar]
  unfold number at hnone ⊢
  rw [hhead, P.int_lower h, P.isFloat_lower h]
  by_cases hstart : text.head?.any numeralStart = true
  · rw [if_pos hstart] at hnone ⊢
    cases hint : P.int text with
    | some n => simp [hint] at hnone
    | none => simp_all
  · rw [if_neg hstart]

end Courses.Scheme
