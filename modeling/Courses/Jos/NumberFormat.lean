import Courses.Jos.FormatReading

/-!
# Numbers in a format

The digits of a number come out behind the pad characters, and the sign before them. So the pad
characters of a negative number stand between the sign and the digits, whatever they are, and
those for a `-` are on the left and not spaces.
-/
namespace Courses.Jos.Printfmt

open Courses.Lib

/-! ## What the digits are -/

/-- The shortest digit string of a number. -/
def digitText (base n : ℕ) : Text := (numeral base n).map digitChar

section Digits

variable {base num n : ℕ} {width : ℤ} {padc : Char}

theorem printnum_eq (hbase : 1 < base) (hle : -2 ^ 31 + (digitText base num).length ≤ width)
    (hlt : width < 2 ^ 31) : printnum num base hbase width padc =
      List.replicate (width - (digitText base num).length).toNat padc ++ digitText base num := by
  induction num using Nat.strong_induction_on generalizing width with
  | h num ih =>
    rw [printnum]
    by_cases hmore : base ≤ num
    · have hdigits : digitText base num =
          digitText base (num / base) ++ [digitChar (num % base)] := by
        rw [digitText, numeral_of_le hbase hmore, List.map_append]
        rfl
      rw [hdigits, List.length_append, List.length_singleton] at hle ⊢
      push_cast at hle
      have hwidth : int32 (width - 1) = width - 1 := int32_eq (by omega) (by omega)
      have hlater := ih (num / base) (Nat.div_lt_self (by omega) hbase)
        (by omega : -2 ^ 31 + ((digitText base (num / base)).length : ℤ) ≤ width - 1) (by omega)
      rw [if_pos hmore, hwidth, hlater, List.append_assoc]
      push_cast
      congr 3
      ring
    · have hdigits : digitText base num = [digitChar num] := by
        rw [digitText, numeral_of_lt (by omega)]
        rfl
      rw [hdigits, List.length_singleton] at hle ⊢
      push_cast at hle
      have hwidth : int32 (width - 1) = width - 1 := int32_eq (by omega) (by omega)
      rw [if_neg hmore, hwidth, Nat.mod_eq_of_lt (by omega)]
      rfl

theorem length_digitText_pos (base n : ℕ) : 0 < (digitText base n).length := by
  rw [digitText, List.length_map]
  exact length_numeral_pos base n

theorem length_digitText_le (hbase : 1 < base) (h : n < 2 ^ 64) :
    (digitText base n).length ≤ 64 := by
  rw [digitText, List.length_map]
  exact length_numeral_le hbase (by decide) (h.trans_le (Nat.pow_le_pow_left hbase 64))

end Digits

/-! ## Directives for numbers -/

inductive Flag
  | none | zero | minus
  deriving DecidableEq

/-- No field width, one in digits, or one that is an argument. -/
inductive Width
  | absent
  | digits (w : ℕ) (pos : 0 < w) (lt : w < 2 ^ 31)
  | star (w : ℕ) (lt : w < 2 ^ 31)

inductive Size
  | int | long | longLong

inductive Conversion
  | d | u | x

namespace Flag

def chars : Flag → Text
  | none => []
  | zero => ['0']
  | minus => ['-']

def padc : Flag → Char
  | none => ' '
  | zero => '0'
  | minus => '-'

end Flag

namespace Width

def chars : Width → Text
  | absent => []
  | digits w _ _ => (decimal w).map digitChar
  | star _ _ => ['*']

def args : Width → List Arg
  | star w _ => [.word (.ofNat 32 w)]
  | _ => []

/-- The field width. -/
def value : Width → ℕ
  | absent => 0
  | digits w _ _ => w
  | star w _ => w

/-- The variable `width`. -/
def var : Width → ℤ
  | absent => -1
  | digits w _ _ => w
  | star w _ => w

end Width

namespace Size

def chars : Size → Text
  | int => []
  | long => ['l']
  | longLong => ['l', 'l']

/-- The bits of an argument. -/
def bits : Size → ℕ
  | int => 32
  | long => 32
  | longLong => 64

def arg : (size : Size) → BitVec size.bits → Arg
  | int, n => .word n
  | long, n => .word n
  | longLong, n => .longLong n

def lflag : Size → ℤ
  | int => 0
  | long => 1
  | longLong => 2

end Size

namespace Conversion

def char : Conversion → Char
  | d => 'd'
  | u => 'u'
  | x => 'x'

def base : Conversion → ℕ
  | d => 10
  | u => 10
  | x => 16

/-- The value of an argument. -/
def value {size : Size} : Conversion → BitVec size.bits → ℤ
  | d, n => n.toInt
  | u, n => n.toNat
  | x, n => n.toNat

end Conversion

def directive (flag : Flag) (width : Width) (size : Size) (conv : Conversion) : Text :=
  '%' :: (flag.chars ++ width.chars ++ size.chars ++ [conv.char])

def sign (value : ℤ) : Text := if value < 0 then ['-'] else []

/-- A number as `printf` of C prints it in a field. -/
def padded (flag : Flag) (width : ℕ) (sign digits : Text) : Text :=
  let pad := width - (sign ++ digits).length
  match flag with
  | .none => List.replicate pad ' ' ++ sign ++ digits
  | .zero => sign ++ List.replicate pad '0' ++ digits
  | .minus => sign ++ digits ++ List.replicate pad ' '

theorem length_padded (flag : Flag) (width : ℕ) (sign digits : Text) :
    (padded flag width sign digits).length = max width (sign ++ digits).length := by
  cases flag <;> simp [padded] <;> omega

/-! ## What a directive sets -/

variable {flag : Flag} {width : Width} {size : Size} {conv : Conversion} {v : Vars}
  {mods pre t out : Text} {ap : List Arg} {fmt : CString}

theorem toNat_digitChar {d : ℕ} (h : d < 10) : (digitChar d).toNat = '0'.toNat + d := by
  interval_cases d <;> rfl

theorem isDigit_digitChar {d : ℕ} (h : d < 10) : isDigit (digitChar d) = true := by
  interval_cases d <;> decide

theorem caseOf_digitChar {d : ℕ} (h : d < 10) (hpos : 0 < d) : caseOf (digitChar d) = .digit := by
  interval_cases d <;> decide

theorem le_foldl_digits (ds : List ℕ) (p : ℕ) : p ≤ ds.foldl (fun n d => n * 10 + d) p := by
  induction ds generalizing p with
  | nil => exact le_rfl
  | cons d ds ih => exact (by omega : p ≤ p * 10 + d).trans (ih _)

theorem number_map {ds : List ℕ} {p : ℕ} (hds : ∀ d ∈ ds, d < 10)
    (hlt : ds.foldl (fun n d => n * 10 + d) p < 2 ^ 31) :
    number p (ds.map digitChar) = (ds.foldl (fun n d => n * 10 + d) p : ℕ) := by
  induction ds generalizing p with
  | nil => rfl
  | cons d ds ih =>
    have hd := toNat_digitChar (hds d List.mem_cons_self)
    have hle := le_foldl_digits ds (p * 10 + d)
    have hlater := ih (fun d hd => hds d (List.mem_cons_of_mem _ hd)) hlt
    rw [List.foldl_cons] at hlt
    have hstep : int32 ((p : ℤ) * 10 + (digitChar d).toNat - '0'.toNat) = (p * 10 + d : ℕ) := by
      rw [hd, int32_eq] <;> push_cast <;> omega
    rw [List.map_cons, number, List.foldl_cons, hstep]
    exact hlater

theorem number_decimal {w : ℕ} (h : w < 2 ^ 31) : number 0 ((decimal w).map digitChar) = w := by
  have hvalue := ofDecimal_decimal w
  rw [ofDecimal] at hvalue
  have hnumber := number_map (p := 0) (fun d hd => lt_of_mem_decimal hd) (by rw [hvalue]; exact h)
  rw [hvalue] at hnumber
  exact hnumber

theorem decimal_head {w d : ℕ} {ds : List ℕ} (hw : 0 < w) (h : decimal w = d :: ds) : 0 < d := by
  have hdigits : (Nat.digits 10 w).reverse = d :: ds := by
    rw [← h, decimal, if_neg hw.ne']
  have hne : Nat.digits 10 w ≠ [] := Nat.digits_ne_nil_iff_ne_zero.2 hw.ne'
  have hlast := Nat.getLast_digit_ne_zero 10 hw.ne'
  have hd : (Nat.digits 10 w).getLast hne = d := by
    rw [← List.head_reverse (by simpa using hne)]
    simp [hdigits]
  rw [hd] at hlast
  omega

theorem scan_flag (flag : Flag) (mods : Text) (ap : List Arg) :
    scan (flag.chars ++ mods) {} ap = scan mods { padc := flag.padc } ap := by
  cases flag with
  | none => rfl
  | zero =>
    rw [Flag.chars, List.singleton_append, scan]
    rfl
  | minus =>
    rw [Flag.chars, List.singleton_append, scan]
    rfl

theorem scan_width (width : Width) (padc : Char) (hmods : isDigit (first mods) = false)
    (ap : List Arg) :
    scan (width.chars ++ mods) { padc } (width.args ++ ap) =
      scan mods { padc, width := width.var } ap := by
  cases width with
  | absent => rfl
  | star w hlt =>
    have hvalue : (BitVec.ofNat 32 w).toInt = w := by
      rw [BitVec.toInt_eq_toNat_of_lt] <;> rw [BitVec.toNat_ofNat] <;> omega
    rw [Width.chars, List.singleton_append, scan]
    change scan mods (Vars.processPrecision { padc } (BitVec.ofNat 32 w).toInt) ap = _
    rw [hvalue]
    rfl
  | digits w hpos hlt =>
    cases hw : decimal w with
    | nil => exact absurd hw (decimal_ne_nil w)
    | cons d ds =>
      have hdigits : ∀ c ∈ ds.map digitChar, isDigit c = true := by
        intro c hc
        obtain ⟨e, he, rfl⟩ := List.mem_map.1 hc
        exact isDigit_digitChar (lt_of_mem_decimal (hw ▸ List.mem_cons_of_mem _ he))
      have hstop : mods.takeWhile isDigit = [] ∧ mods.dropWhile isDigit = mods := by
        cases mods with
        | nil => exact ⟨rfl, rfl⟩
        | cons c mods =>
          have hc : isDigit c = false := hmods
          simp [hc]
      have htake : (ds.map digitChar ++ mods).takeWhile isDigit = ds.map digitChar := by
        rw [List.takeWhile_append_of_pos hdigits, hstop.1, List.append_nil]
      have hdrop : (ds.map digitChar ++ mods).dropWhile isDigit = mods := by
        rw [List.dropWhile_append_of_pos hdigits, hstop.2]
      have hcase := caseOf_digitChar (lt_of_mem_decimal (hw ▸ List.mem_cons_self))
        (decimal_head hpos hw)
      have hnumber := number_decimal hlt
      rw [hw, List.map_cons] at hnumber
      rw [Width.chars, hw, List.map_cons, List.cons_append, scan]
      simp only [hcase, htake, hdrop, hnumber]
      rfl

theorem scan_nil (v : Vars) (ap : List Arg) : scan [] v ap = .ok (v, ap) := by rw [scan]

theorem scan_long (mods : Text) (v : Vars) (ap : List Arg) :
    scan ('l' :: mods) v ap = scan mods { v with lflag := int32 (v.lflag + 1) } ap := by
  rw [scan]
  rfl

theorem scan_size (size : Size) (padc : Char) (width : ℤ) (ap : List Arg) :
    scan size.chars { padc, width } ap = .ok ({ padc, width, lflag := size.lflag }, ap) := by
  cases size with
  | int => exact scan_nil _ _
  | long =>
    rw [Size.chars, scan_long, scan_nil]
    rfl
  | longLong =>
    rw [Size.chars, scan_long, scan_long, scan_nil]
    rfl

/-! ## What a directive prints -/

theorem getint_arg (size : Size) (n : BitVec size.bits) (ap : List Arg) :
    ∃ num, getint (size.arg n :: ap) size.lflag = .ok (num, ap) ∧ num.toInt = n.toInt := by
  cases size with
  | int | long => exact ⟨_, rfl, BitVec.toInt_signExtend_of_le (by decide)⟩
  | longLong => exact ⟨_, rfl, rfl⟩

theorem getuint_arg (size : Size) (n : BitVec size.bits) (ap : List Arg) :
    ∃ num, getuint (size.arg n :: ap) size.lflag = .ok (num, ap) ∧ num.toNat = n.toNat := by
  cases size with
  | int | long => exact ⟨_, rfl, BitVec.toNat_setWidth_of_le (by decide)⟩
  | longLong => exact ⟨_, rfl, rfl⟩

/-- The number that `va_arg` gives to a conversion. -/
theorem convert_number (fmt : CString) (conv : Conversion)
    (hwidth : -1 ≤ v.width ∧ v.width < 2 ^ 31) (hlflag : v.lflag = size.lflag)
    (i : ℕ) (n : BitVec size.bits) (ap : List Arg)
    (printfmt : CString → List Arg → Except Stop Text) :
    convert fmt printfmt i v (size.arg n :: ap) (caseOf conv.char) = .ok (i, ap,
      sign (conv.value n) ++ (List.replicate
        (v.width - (digitText conv.base (conv.value n).natAbs).length).toNat v.padc ++
          digitText conv.base (conv.value n).natAbs)) := by
  have hprint : ∀ {base num : ℕ} (hbase : 1 < base), num < 2 ^ 64 →
      printnum num base hbase v.width v.padc = List.replicate
        (v.width - (digitText base num).length).toNat v.padc ++ digitText base num := by
    intro base num hbase hnum
    have hlength := length_digitText_le hbase hnum
    exact printnum_eq hbase (by omega) hwidth.2
  have hsigned : ∀ num : BitVec 64, formatSigned v num = sign num.toInt ++ (List.replicate
      (v.width - (digitText 10 num.toInt.natAbs).length).toNat v.padc ++
        digitText 10 num.toInt.natAbs) := by
    intro num
    have hnum := num.isLt
    have hcond := BitVec.toInt_eq_toNat_cond num
    rw [formatSigned, sign]
    split_ifs with hneg
    · have habs : (-num).toNat = num.toInt.natAbs := by
        rw [BitVec.toNat_neg]
        split_ifs at hcond <;> omega
      rw [habs, hprint _ (by omega)]
      rfl
    · have habs : num.toNat = num.toInt.natAbs := by
        split_ifs at hcond <;> omega
      rw [habs, hprint _ (by omega)]
      rfl
  have hnonneg : ∀ num : ℕ, sign num = [] := fun num => if_neg (by omega)
  cases conv with
  | d =>
    obtain ⟨num, hget, hnum⟩ := getint_arg size n ap
    rw [← hlflag] at hget
    change (getint (size.arg n :: ap) v.lflag >>= fun r => pure (i, r.2, formatSigned v r.1)) = _
    rw [hget]
    change Except.ok (i, ap, formatSigned v num) = _
    rw [hsigned, hnum]
    rfl
  | u =>
    obtain ⟨num, hget, hnum⟩ := getuint_arg size n ap
    rw [← hlflag] at hget
    change (getuint (size.arg n :: ap) v.lflag >>= fun r =>
      pure (i, r.2, printnum r.1.toNat 10 Nat.one_lt_ofNat v.width v.padc)) = _
    rw [hget]
    change Except.ok (i, ap, printnum num.toNat 10 Nat.one_lt_ofNat v.width v.padc) = _
    rw [hprint _ num.isLt, hnum, Conversion.value, hnonneg, Int.natAbs_natCast]
    rfl
  | x =>
    obtain ⟨num, hget, hnum⟩ := getuint_arg size n ap
    rw [← hlflag] at hget
    change (getuint (size.arg n :: ap) v.lflag >>= fun r =>
      pure (i, r.2, printnum r.1.toNat 16 Nat.one_lt_ofNat v.width v.padc)) = _
    rw [hget]
    change Except.ok (i, ap, printnum num.toNat 16 Nat.one_lt_ofNat v.width v.padc) = _
    rw [hprint _ num.isLt, hnum, Conversion.value, hnonneg, Int.natAbs_natCast]
    rfl

theorem isModifier_chars (flag : Flag) (width : Width) (size : Size) :
    ∀ c ∈ flag.chars ++ width.chars ++ size.chars, isModifier c = true := by
  intro c hc
  rw [List.mem_append, List.mem_append] at hc
  obtain (hc | hc) | hc := hc
  · cases flag <;> simp only [Flag.chars, List.not_mem_nil, List.mem_singleton] at hc <;>
      rw [hc] <;> decide
  · cases width with
    | absent => cases hc
    | star w _ =>
      rw [Width.chars, List.mem_singleton] at hc
      rw [hc]
      decide
    | digits w _ _ =>
      obtain ⟨d, hd, rfl⟩ := List.mem_map.1 hc
      exact isModifier_of_isDigit (isDigit_digitChar (lt_of_mem_decimal hd))
  · cases size <;> simp [Size.chars] at hc <;> rw [hc] <;> decide

theorem PrintsFrom.number (hchars : fmt.chars = pre ++ (directive flag width size conv ++ t))
    (n : BitVec size.bits)
    (h : PrintsFrom fmt (pre.length + (directive flag width size conv).length) ap out) :
    PrintsFrom fmt pre.length (width.args ++ size.arg n :: ap) (sign (conv.value n) ++
      (List.replicate (width.value - (digitText conv.base (conv.value n).natAbs).length)
        flag.padc ++ digitText conv.base (conv.value n).natAbs) ++ out) := by
  have hmods := isModifier_chars flag width size
  generalize hm : flag.chars ++ width.chars ++ size.chars = mods at hmods
  have hdirective : directive flag width size conv = '%' :: (mods ++ [conv.char]) := by
    rw [directive, hm]
  have hdrop : fmt.chars.drop pre.length = '%' :: (mods ++ (conv.char :: t)) := by
    rw [hchars, drop_prefix, hdirective, List.cons_append, List.append_assoc]
    rfl
  have hlt : pre.length < fmt.chars.length := by
    rw [hchars, hdirective]
    simp
  have hdrop' := drop_succ_of_drop hdrop
  have hlength := length_of_drop hdrop' (by omega)
  have hconv : isModifier (first (conv.char :: t)) = false := by
    cases conv <;> rfl
  have hscan : scan mods {} (width.args ++ size.arg n :: ap) =
      .ok ({ padc := flag.padc, width := width.var, lflag := size.lflag }, size.arg n :: ap) := by
    have hstop : isDigit (first size.chars) = false := by
      cases size <;> decide
    rw [← hm, List.append_assoc, scan_flag, scan_width width flag.padc hstop, scan_size]
  have hvar : -1 ≤ width.var ∧ width.var < 2 ^ 31 := by
    cases width <;> simp only [Width.var] <;> omega
  have hpad : ∀ k, 0 < k → (width.var - (k : ℕ)).toNat = width.value - k := by
    intro k hk
    cases width <;> simp only [Width.var, Width.value] <;> omega
  have hescape := escape_eq (vprintfmtWithin 1) hdrop' (by omega) hmods hconv
    (by omega : mods.length < fmt.chars.length + 1) {} (width.args ++ size.arg n :: ap)
  rw [hscan] at hescape
  have hconvert := convert_number fmt conv
    (v := { padc := flag.padc, width := width.var, lflag := size.lflag }) hvar rfl
    (pre.length + 1 + mods.length + 1) n ap (vprintfmtWithin 1)
  rw [hpad _ (length_digitText_pos _ _)] at hconvert
  have hplace : pre.length + (directive flag width size conv).length =
      pre.length + 1 + mods.length + 1 := by
    rw [hdirective, List.length_cons, List.length_append, List.length_singleton]
    omega
  rw [hplace] at h
  exact PrintsFrom.escape hdrop (hescape.trans hconvert) h

/-! ## Fields -/

theorem count_replicate_ne {c d : Char} (h : c ≠ d) (k : ℕ) :
    (List.replicate k c).count d = 0 := by
  rw [List.count_replicate, if_neg (by simpa using h)]

/-- The pad characters are where `printf` puts them. -/
theorem field_eq_padded_iff (flag : Flag) (w : ℕ) {s ds : Text} (hs : s = [] ∨ s = ['-']) :
    s ++ (List.replicate (w - ds.length) flag.padc ++ ds) = padded flag w s ds ↔
      w ≤ ds.length ∨ flag ≠ .minus ∧ s = [] := by
  by_cases hw : w ≤ ds.length
  · have hpad : w - (s.length + ds.length) = 0 := by omega
    have hnone : w - ds.length = 0 := by omega
    refine iff_of_true ?_ (.inl hw)
    cases flag <;> simp [padded, hnone, hpad]
  · have hminus : s ++ (List.replicate (w - ds.length) '-' ++ ds) ≠ padded .minus w s ds := by
      intro heq
      have hcount := congrArg (List.count '-') heq
      simp only [padded, List.count_append, List.count_replicate_self,
        count_replicate_ne (show ' ' ≠ '-' by decide)] at hcount
      omega
    cases flag with
    | minus => exact iff_of_false hminus (by simp [hw])
    | none | zero =>
      obtain rfl | rfl := hs
      · refine iff_of_true ?_ (.inr ⟨by simp, rfl⟩)
        simp [padded, Flag.padc]
      · refine iff_of_false (fun heq => ?_) (by simp [hw])
        have hlength := congrArg List.length heq
        rw [length_padded, List.length_append, List.length_append, List.length_append,
          List.length_replicate, List.length_singleton] at hlength
        omega

theorem nul_notMem_directive (flag : Flag) (width : Width) (size : Size) (conv : Conversion) :
    nul ∉ directive flag width size conv := by
  have hmodifier : isModifier nul = false := by decide
  intro h
  rw [directive, List.mem_cons, List.mem_append] at h
  obtain h | h | h := h
  · revert h
    decide
  · rw [isModifier_chars flag width size nul h] at hmodifier
    cases hmodifier
  · cases conv <;> revert h <;> decide

/-- Wherever the directive stands in a format, it prints the number as `printf` of C does. -/
def FormatsNumber (flag : Flag) (width : Width) (size : Size) (conv : Conversion)
    (n : BitVec size.bits) : Prop :=
  ∀ (fmt : CString) (pre t out : Text) (ap : List Arg),
    fmt.chars = pre ++ (directive flag width size conv ++ t) →
    PrintsFrom fmt (pre.length + (directive flag width size conv).length) ap out →
    ∃ field, PrintsFrom fmt pre.length (width.args ++ size.arg n :: ap) (field ++ out) ∧
      field = padded flag width.value (sign (conv.value n))
        (digitText conv.base (conv.value n).natAbs) ∧
      field.length = max width.value
        (sign (conv.value n) ++ digitText conv.base (conv.value n).natAbs).length

theorem sign_cases (value : ℤ) : sign value = [] ∨ sign value = ['-'] := by
  rw [sign]
  split_ifs
  · exact .inr rfl
  · exact .inl rfl

theorem sign_eq_nil_iff (value : ℤ) : sign value = [] ↔ 0 ≤ value := by
  rw [sign]
  split_ifs with hneg
  · exact iff_of_false (by simp) (by omega)
  · exact iff_of_true rfl (by omega)

theorem formatsNumber_iff_field (flag : Flag) (width : Width) (size : Size) (conv : Conversion)
    (n : BitVec size.bits) :
    FormatsNumber flag width size conv n ↔ sign (conv.value n) ++ (List.replicate
        (width.value - (digitText conv.base (conv.value n).natAbs).length) flag.padc ++
          digitText conv.base (conv.value n).natAbs) =
      padded flag width.value (sign (conv.value n))
        (digitText conv.base (conv.value n).natAbs) := by
  constructor
  · intro h
    have hchars : (⟨_, nul_notMem_directive flag width size conv⟩ : CString).chars =
        [] ++ (directive flag width size conv ++ []) := by simp
    have hend : PrintsFrom ⟨_, nul_notMem_directive flag width size conv⟩
        (([] : Text).length + (directive flag width size conv).length) [] [] := by
      rw [List.length_nil, Nat.zero_add]
      exact PrintsFrom.end ⟨_, nul_notMem_directive flag width size conv⟩ []
    obtain ⟨field, hprints, hpadded, -⟩ := h _ _ _ _ _ hchars hend
    have heq := (PrintsFrom.number hchars n hend).unique hprints
    rw [List.append_nil, List.append_nil] at heq
    rw [heq, hpadded]
  · intro heq fmt pre t out ap hchars hrest
    exact ⟨_, PrintsFrom.number hchars n hrest, heq, by rw [heq, length_padded]⟩

/-- The number is printed as by `printf` just if there is nothing to pad, or the number is not
negative and the pad characters are not on the right. -/
theorem formatsNumber_iff (flag : Flag) (width : Width) (size : Size) (conv : Conversion)
    (n : BitVec size.bits) :
    FormatsNumber flag width size conv n ↔
      width.value ≤ (digitText conv.base (conv.value n).natAbs).length ∨
        flag ≠ .minus ∧ 0 ≤ conv.value n := by
  rw [formatsNumber_iff_field, field_eq_padded_iff _ _ (sign_cases _), sign_eq_nil_iff]

theorem two_lt_widths : 2 < 2 ^ 31 := by decide

/-- `%2d` of `-1` is `-1` in C, but here it is `- 1`. -/
theorem not_formatsNumber_negative :
    ¬ FormatsNumber .none (.digits 2 Nat.zero_lt_two two_lt_widths) .int .d (.ofInt 32 (-1)) := by
  have hone : digitText 10 1 = ['1'] := by
    rw [digitText, numeral_of_lt (by decide)]
    rfl
  intro h
  have hfield : ['-'] ++ (List.replicate (2 - (digitText 10 1).length) ' ' ++ digitText 10 1) =
      padded .none 2 ['-'] (digitText 10 1) := (formatsNumber_iff_field _ _ _ _ _).1 h
  rw [hone] at hfield
  revert hfield
  decide

end Courses.Jos.Printfmt
