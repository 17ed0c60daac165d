import Courses.Jos.Printfmt
import Mathlib.Data.List.TakeWhile

/-!
# Reading a format

An escape sequence is a `%`, modifiers, and a character that decides what to print. The
modifiers are read one after the other up to this character. If it means nothing, the format is
read again from behind the `%`, and there is no other `%` before the character.
-/
namespace Courses.Jos.Printfmt

open Courses.Lib

variable {fmt : CString} {printfmt : CString → List Arg → Except Stop Text} {i fuel : ℕ}
  {v : Vars} {ap ap' : List Arg} {c : Char} {s t pre mods out : Text}

/-! ## Characters -/

theorem CString.read_of_drop (h : fmt.chars.drop i = c :: t) : fmt.read i = .ok c := by
  have hlt : i < fmt.chars.length := by
    by_contra hle
    rw [List.drop_eq_nil_of_le (by omega)] at h
    cases h
  have hget : (fmt.chars ++ [nul])[i]? = some c := by
    rw [List.getElem?_append_left hlt, ← List.head?_drop, h]
    rfl
  rw [CString.read, hget]

theorem CString.read_length (fmt : CString) : fmt.read fmt.chars.length = .ok nul := by
  simp [CString.read]

theorem drop_succ_of_drop {l : Text} (h : l.drop i = c :: t) : l.drop (i + 1) = t := by
  rw [← List.drop_drop, h]
  rfl

theorem drop_add_of_drop {l : Text} (h : l.drop i = s ++ t) : l.drop (i + s.length) = t := by
  rw [← List.drop_drop, h, List.drop_left]

theorem length_of_drop {l : Text} (h : l.drop i = s ++ t) (hi : i ≤ l.length) :
    i + s.length + t.length = l.length := by
  have hlength := congrArg List.length h
  rw [List.length_drop, List.length_append] at hlength
  omega

theorem drop_prefix (pre t : Text) : (pre ++ t).drop pre.length = t := List.drop_left

/-- The character at the start of the rest, or the NUL behind it. -/
def first (t : Text) : Char := t.headD nul

theorem CString.read_first (h : fmt.chars.drop i = t) (hi : i ≤ fmt.chars.length) :
    fmt.read i = .ok (first t) := by
  cases t with
  | nil =>
    have hend : i = fmt.chars.length := by
      rw [List.drop_eq_nil_iff] at h
      omega
    rw [hend]
    exact fmt.read_length
  | cons c t => exact CString.read_of_drop h

/-! ## Modifiers -/

def isDigit (ch : Char) : Bool := '0' ≤ ch ∧ ch ≤ '9'

def Case.modifies : Case → Bool
  | .minus | .zero | .digit | .star | .dot | .sharp | .long => true
  | _ => false

def isModifier (ch : Char) : Bool := (caseOf ch).modifies

/-- The number that digits of the format say, if it is an `int`. -/
def number (precision : ℤ) (ds : Text) : ℤ :=
  ds.foldl (fun p ch => int32 (p * 10 + ch.toNat - '0'.toNat)) precision

theorem digits_eq {ds : Text} (precision : ℤ) (ch : Char) (hdrop : fmt.chars.drop i = ds ++ t)
    (hi : i ≤ fmt.chars.length) (hds : ∀ d ∈ ds, isDigit d = true)
    (ht : isDigit (first t) = false) (hfuel : ds.length < fuel) :
    digits fmt fuel i precision ch = .ok (number precision (ch :: ds), i + ds.length) := by
  induction ds generalizing i fuel precision ch with
  | nil =>
    obtain _ | fuel := fuel
    · omega
    have hstop : first t < '0' ∨ first t > '9' := by
      rw [isDigit, decide_eq_false_iff_not, not_and_or, Char.not_le, Char.not_le] at ht
      exact ht
    rw [digits, CString.read_first hdrop hi]
    simp [bind, Except.bind, pure, Except.pure, hstop, number]
  | cons d ds ih =>
    obtain _ | fuel := fuel
    · omega
    have hgo : ¬ (d < '0' ∨ d > '9') := by
      have hd := hds d List.mem_cons_self
      rw [isDigit, decide_eq_true_iff] at hd
      rw [not_or, Char.not_lt, gt_iff_lt, Char.not_lt]
      exact hd
    have hlength := length_of_drop hdrop hi
    rw [List.length_cons] at hlength hfuel
    have hlater : digits fmt fuel (i + 1) (int32 (precision * 10 + ch.toNat - '0'.toNat)) d =
        .ok (number precision (ch :: d :: ds), i + 1 + ds.length) :=
      ih _ _ (drop_succ_of_drop hdrop) (by omega)
        (fun d hd => hds d (List.mem_cons_of_mem _ hd)) (by omega)
    rw [digits, CString.read_of_drop hdrop]
    simp only [bind, Except.bind, if_neg hgo, hlater, List.length_cons]
    congr 2
    omega

/-- What the modifiers of an escape sequence say, and the arguments that are left. -/
def scan : Text → Vars → List Arg → Except Stop (Vars × List Arg)
  | [], v, ap => .ok (v, ap)
  | ch :: mods, v, ap =>
    match caseOf ch with
    | .minus => scan mods { v with padc := '-' } ap
    | .zero => scan mods { v with padc := '0' } ap
    | .digit =>
      scan (mods.dropWhile isDigit)
        (v.processPrecision (number 0 (ch :: mods.takeWhile isDigit))) ap
    | .star => do
      let (precision, ap) ← vaWord ap
      scan mods (v.processPrecision precision.toInt) ap
    | .dot => scan mods { v with width := if v.width < 0 then 0 else v.width } ap
    | .sharp => scan mods { v with altflag := true } ap
    | .long => scan mods { v with lflag := int32 (v.lflag + 1) } ap
    | _ => .ok (v, ap)
termination_by mods => mods.length
decreasing_by
  all_goals
    have hle := (List.dropWhile_suffix isDigit (l := mods)).length_le
    simp only [List.length_cons]
    omega

theorem isModifier_of_isDigit (h : isDigit c = true) : isModifier c = true := by
  rw [isDigit, decide_eq_true_iff] at h
  by_cases hzero : c = '0'
  · rw [hzero]
    decide
  · have hone : '1' ≤ c := by
      have hne : c.toNat ≠ 48 := fun heq => hzero (Char.toNat_inj.1 heq)
      have hle : 48 ≤ c.toNat := h.1
      change 49 ≤ c.toNat
      omega
    have hminus : c ≠ '-' := by
      rintro rfl
      revert h
      decide
    rw [isModifier, caseOf, if_neg hminus, if_neg hzero, if_pos ⟨hone, h.2⟩]
    rfl

theorem isDigit_of_not_isModifier (h : isModifier c = false) : isDigit c = false := by
  cases hd : isDigit c with
  | false => rfl
  | true =>
    rw [isModifier_of_isDigit hd] at h
    cases h

theorem first_append (h : mods ≠ []) (t : Text) : first (mods ++ t) = first mods := by
  cases mods with
  | nil => exact absurd rfl h
  | cons c mods => rfl

theorem not_isDigit_first_dropWhile (mods : Text) (ht : isDigit (first t) = false) :
    isDigit (first (mods.dropWhile isDigit ++ t)) = false := by
  cases h : mods.dropWhile isDigit with
  | nil => exact ht
  | cons c rest =>
    have hhead := List.head?_dropWhile_not isDigit mods
    rw [h] at hhead
    simpa [first] using hhead

/-- The modifiers are read up to the character that leaves the switch. -/
theorem escape_eq (printfmt : CString → List Arg → Except Stop Text)
    (hdrop : fmt.chars.drop i = mods ++ t) (hi : i ≤ fmt.chars.length)
    (hmods : ∀ c ∈ mods, isModifier c = true) (ht : isModifier (first t) = false)
    (hfuel : mods.length < fuel) (v : Vars) (ap : List Arg) :
    escape fmt printfmt fuel i v ap = scan mods v ap >>= fun r =>
      convert fmt printfmt (i + mods.length + 1) r.1 r.2 (caseOf (first t)) := by
  induction hn : mods.length using Nat.strong_induction_on generalizing i mods fuel v ap with
  | h n ih =>
    obtain _ | fuel := fuel
    · omega
    cases mods with
    | nil =>
      have hread := CString.read_first (t := t) hdrop hi
      rw [List.length_nil] at hn
      subst hn
      rw [escape, hread, scan]
      simp only [bind, Except.bind]
      rw [isModifier] at ht
      cases hcase : caseOf (first t) with
      | minus | zero | digit | star | dot | sharp | long =>
        rw [hcase] at ht
        cases ht
      | _ => rfl
    | cons c mods =>
      have hmods' : ∀ d ∈ mods, isModifier d = true :=
        fun d hd => hmods d (List.mem_cons_of_mem _ hd)
      have hc := hmods c List.mem_cons_self
      have hlength := length_of_drop hdrop hi
      rw [List.length_cons] at hn hlength hfuel
      have hnext := fun v ap => ih mods.length (by omega) (drop_succ_of_drop hdrop) (by omega)
        hmods' (by omega : mods.length < fuel) v ap rfl
      have hplace : i + 1 + mods.length + 1 = i + n + 1 := by omega
      rw [hplace] at hnext
      rw [escape, CString.read_of_drop hdrop, scan]
      simp only [bind, Except.bind] at hnext ⊢
      rw [isModifier] at hc
      cases hcase : caseOf c with
      | minus => exact hnext _ _
      | zero => exact hnext _ _
      | dot => exact hnext _ _
      | sharp => exact hnext _ _
      | long => exact hnext _ _
      | star =>
        dsimp only
        cases hva : vaWord ap with
        | error e => rfl
        | ok r => exact hnext _ _
      | digit =>
        have hsplit := List.takeWhile_append_dropWhile (p := isDigit) (l := mods)
        have hrest := (List.dropWhile_suffix isDigit (l := mods)).length_le
        have hsum := congrArg List.length hsplit
        rw [List.length_append] at hsum
        have hdrop' : fmt.chars.drop (i + 1) =
            mods.takeWhile isDigit ++ (mods.dropWhile isDigit ++ t) := by
          rw [← List.append_assoc, hsplit]
          exact drop_succ_of_drop hdrop
        have hdigits := digits_eq 0 c hdrop' (by omega) (fun d hd => List.mem_takeWhile_imp hd)
          (not_isDigit_first_dropWhile mods (isDigit_of_not_isModifier ht))
          (by omega : (mods.takeWhile isDigit).length < fuel)
        have hlater := ih (mods.dropWhile isDigit).length (by omega)
          (drop_add_of_drop hdrop') (by omega)
          (fun d hd => hmods' d ((List.dropWhile_suffix isDigit).subset hd))
          (by omega : (mods.dropWhile isDigit).length < fuel)
          (v.processPrecision (number 0 (c :: mods.takeWhile isDigit))) ap rfl
        dsimp only
        rw [hdigits]
        dsimp only
        rw [hlater]
        simp only [bind, Except.bind]
        have hplace' : i + 1 + (mods.takeWhile isDigit).length +
            (mods.dropWhile isDigit).length + 1 = i + n + 1 := by omega
        rw [hplace']
      | _ =>
        rw [hcase] at hc
        cases hc

/-! ## One escape sequence -/

theorem vaWord_error {e : Stop} (h : vaWord ap = .error e) : e = .vaArg := by
  unfold vaWord at h
  split at h
  · cases h
  · cases h
    rfl

theorem vaLongLong_error {e : Stop} (h : vaLongLong ap = .error e) : e = .vaArg := by
  unfold vaLongLong at h
  split at h
  · cases h
  · cases h
    rfl

theorem vaString_error {e : Stop} (h : vaString ap = .error e) : e = .vaArg := by
  unfold vaString at h
  split at h
  · cases h
  · cases h
    rfl

theorem scan_error {e : Stop} (h : scan mods v ap = .error e) : e = .vaArg := by
  fun_induction scan mods v ap with
  | case1 | case9 => cases h
  | case5 c mods v ap hc ih =>
    cases hva : vaWord ap with
    | error e' =>
      rw [hva] at h
      cases h
      exact vaWord_error hva
    | ok r =>
      rw [hva] at h
      exact ih _ _ h
  | _ =>
    rename_i ih
    exact ih h

theorem not_percent_of_isModifier (h : isModifier c = true) : c ≠ '%' := by
  rintro rfl
  revert h
  decide

/-- The scan back stops behind the `%` of the escape sequence. -/
theorem scanBack_eq (hdrop : fmt.chars.drop i = '%' :: (mods ++ t))
    (hmods : ∀ c ∈ mods, isModifier c = true) :
    scanBack fmt (i + 1 + mods.length) = .ok (i + 1) := by
  induction mods using List.reverseRecOn generalizing t with
  | nil =>
    rw [List.length_nil, Nat.add_zero, scanBack, CString.read_of_drop hdrop]
    rfl
  | append_singleton mods c ih =>
    have hc := not_percent_of_isModifier (hmods c (by simp))
    have hread : fmt.chars.drop (i + 1 + mods.length) = c :: t := by
      have hrest : fmt.chars.drop (i + 1) = mods ++ ([c] ++ t) := by
        rw [← List.append_assoc]
        exact drop_succ_of_drop hdrop
      exact drop_add_of_drop hrest
    have hback := ih (t := [c] ++ t) (by rw [← List.append_assoc]; exact hdrop)
      fun d hd => hmods d (List.mem_append_left _ hd)
    rw [List.length_append, List.length_singleton, ← Nat.add_assoc, scanBack,
      CString.read_of_drop hread]
    simpa only [bind, Except.bind, hc, ne_eq, not_false_iff, if_true] using hback

/-- The calls for error messages return. -/
def PrintsMessages (printfmt : CString → List Arg → Except Stop Text) : Prop :=
  (∀ n, ∃ out, printfmt ⟨"error %d".toList, nul_notMem_errorFormat⟩ [.word n] = .ok out) ∧
    ∀ p, ∃ out, printfmt ⟨"%s".toList, nul_notMem_stringFormat⟩ [.string p] = .ok out

theorem PrintsMessages.formatError (h : PrintsMessages printfmt) (n : BitVec 32) :
    ∃ out, formatError printfmt n.toInt = .ok out := by
  have hlow := BitVec.le_toInt n
  have hhigh := BitVec.toInt_lt (x := n)
  have herr : ∀ err : ℤ, err < MAXERROR → (0 ≤ err ∨ err = -2 ^ 31) →
      errorAt err = .ok (errorString (err % 2 ^ 30).toNat) := by
    intro err hlt hrange
    rw [errorAt, if_pos]
    simp only [MAXERROR] at hlt ⊢
    omega
  have habs : ∀ err : ℤ, err = (if n.toInt < 0 then int32 (-n.toInt) else n.toInt) →
      0 ≤ err ∨ err = -2 ^ 31 := by
    rintro err rfl
    split_ifs with hneg
    · by_cases hmin : n.toInt = -2 ^ 31
      · rw [hmin]
        exact .inr (by decide)
      · rw [int32_eq (by omega) (by omega)]
        exact .inl (by omega)
    · exact .inl (by omega)
  unfold Printfmt.formatError
  generalize herror : (if n.toInt < 0 then int32 (-n.toInt) else n.toInt) = err
  by_cases hmany : err ≥ MAXERROR
  · obtain ⟨out, hout⟩ := h.1 (.ofInt 32 err)
    refine ⟨out, ?_⟩
    simp only [bind, Except.bind, if_pos hmany, pure, Except.pure]
    exact hout
  · have hat := herr err (by omega) (habs err herror.symm)
    simp only [bind, Except.bind, if_neg hmany, hat]
    cases errorString (err % 2 ^ 30).toNat with
    | none => exact h.1 _
    | some p => exact h.2 _

/-- A case that prints something goes on behind its character. -/
theorem convert_ok (h : PrintsMessages printfmt) (fmt : CString) (i : ℕ) (v : Vars)
    (ap : List Arg) {case : Case}
    (hmod : case.modifies = false) (hdefault : case ≠ .default) :
    convert fmt printfmt i v ap case = .error .vaArg ∨
      ∃ ap' out, convert fmt printfmt i v ap case = .ok (i, ap', out) := by
  have hword : vaWord ap = .error .vaArg ∨ ∃ r, vaWord ap = .ok r := by
    cases hva : vaWord ap with
    | error e => exact .inl (by rw [vaWord_error hva])
    | ok r => exact .inr ⟨r, rfl⟩
  have hstring : vaString ap = .error .vaArg ∨ ∃ r, vaString ap = .ok r := by
    cases hva : vaString ap with
    | error e => exact .inl (by rw [vaString_error hva])
    | ok r => exact .inr ⟨r, rfl⟩
  have hlong : vaLongLong ap = .error .vaArg ∨ ∃ r, vaLongLong ap = .ok r := by
    cases hva : vaLongLong ap with
    | error e => exact .inl (by rw [vaLongLong_error hva])
    | ok r => exact .inr ⟨r, rfl⟩
  have hint : getint ap v.lflag = .error .vaArg ∨ ∃ r, getint ap v.lflag = .ok r := by
    unfold getint
    split_ifs
    · exact hlong
    · obtain hva | ⟨r, hva⟩ := hword <;> simp [hva, bind, Except.bind, pure, Except.pure]
  have huint : getuint ap v.lflag = .error .vaArg ∨ ∃ r, getuint ap v.lflag = .ok r := by
    unfold getuint
    split_ifs
    · exact hlong
    · obtain hva | ⟨r, hva⟩ := hword <;> simp [hva, bind, Except.bind, pure, Except.pure]
  cases case with
  | minus | zero | digit | star | dot | sharp | long => cases hmod
  | default => exact absurd rfl hdefault
  | octal | percent => exact .inr ⟨_, _, rfl⟩
  | char | pointer =>
    obtain hva | ⟨r, hva⟩ := hword <;> simp [convert, hva, bind, Except.bind, pure, Except.pure]
  | error =>
    obtain hva | ⟨r, hva⟩ := hword
    · simp [convert, hva, bind, Except.bind]
    · obtain ⟨out, hout⟩ := h.formatError r.1
      simp [convert, hva, bind, Except.bind, hout, pure, Except.pure]
  | string =>
    obtain hva | ⟨r, hva⟩ := hstring <;> simp [convert, hva, bind, Except.bind, pure, Except.pure]
  | decimal =>
    obtain hva | ⟨r, hva⟩ := hint <;> simp [convert, hva, bind, Except.bind, pure, Except.pure]
  | unsigned | hex =>
    obtain hva | ⟨r, hva⟩ := huint <;> simp [convert, hva, bind, Except.bind, pure, Except.pure]

theorem isModifier_first_dropWhile (t : Text) :
    isModifier (first (t.dropWhile isModifier)) = false := by
  cases h : t.dropWhile isModifier with
  | nil => decide
  | cons c rest =>
    have hhead := List.head?_dropWhile_not isModifier t
    rw [h] at hhead
    simpa [first] using hhead

/-- A character without a meaning is printed again together with the modifiers before it. -/
theorem escape_default (printfmt : CString → List Arg → Except Stop Text)
    (hdrop : fmt.chars.drop i = '%' :: (mods ++ t))
    (hmods : ∀ c ∈ mods, isModifier c = true) (ht : caseOf (first t) = .default)
    (ap : List Arg) :
    escape fmt printfmt (fmt.chars.length + 1) (i + 1) {} ap =
      scan mods {} ap >>= fun r => .ok (i + 1, r.2, ['%']) := by
  have hlt : i < fmt.chars.length := by
    by_contra hle
    rw [List.drop_eq_nil_of_le (by omega)] at hdrop
    cases hdrop
  have hdrop' := drop_succ_of_drop hdrop
  have hlength := length_of_drop hdrop' (by omega)
  have hfirst : isModifier (first t) = false := by
    rw [isModifier, ht]
    rfl
  rw [escape_eq printfmt hdrop' (by omega) hmods hfirst (by omega), ht]
  congr
  funext r
  simp only [convert, Nat.add_sub_cancel, scanBack_eq hdrop hmods]
  rfl

theorem escape_cases (h : PrintsMessages printfmt) (hdrop : fmt.chars.drop i = '%' :: t)
    (ap : List Arg) :
    escape fmt printfmt (fmt.chars.length + 1) (i + 1) {} ap = .error .vaArg ∨
      ∃ i' ap' out, escape fmt printfmt (fmt.chars.length + 1) (i + 1) {} ap =
        .ok (i', ap', out) ∧ i < i' ∧ i' ≤ fmt.chars.length := by
  have hsplit := List.takeWhile_append_dropWhile (p := isModifier) (l := t)
  have hmods : ∀ c ∈ t.takeWhile isModifier, isModifier c = true :=
    fun c hc => List.mem_takeWhile_imp hc
  have ht := isModifier_first_dropWhile t
  generalize t.takeWhile isModifier = mods at *
  generalize t.dropWhile isModifier = rest at *
  subst hsplit
  have hlt : i < fmt.chars.length := by
    by_contra hle
    rw [List.drop_eq_nil_of_le (by omega)] at hdrop
    cases hdrop
  have hdrop' := drop_succ_of_drop hdrop
  have hlength := length_of_drop hdrop' (by omega)
  cases hscan : scan mods {} ap with
  | error e =>
    left
    rw [escape_eq printfmt hdrop' (by omega) hmods ht (by omega), hscan, scan_error hscan]
    rfl
  | ok r =>
    by_cases hdefault : caseOf (first rest) = .default
    · right
      rw [escape_default printfmt hdrop hmods hdefault, hscan]
      exact ⟨_, _, _, rfl, by omega, by omega⟩
    · have hrest : rest ≠ [] := by
        rintro rfl
        exact hdefault (by decide)
      have hpos := List.length_pos_iff.2 hrest
      rw [escape_eq printfmt hdrop' (by omega) hmods ht (by omega), hscan]
      obtain hva | ⟨ap', out, hout⟩ := convert_ok h fmt (i + 1 + mods.length + 1) r.1 r.2 ht
        hdefault
      · exact .inl hva
      · exact .inr ⟨_, _, _, hout, by omega, by omega⟩

/-! ## Whole formats -/

theorem loop_ok (h : PrintsMessages printfmt) (hi : i ≤ fmt.chars.length)
    (hfuel : fmt.chars.length - i < fuel) (ap : List Arg) :
    loop fmt printfmt fuel i ap = .error .vaArg ∨
      ∃ out, loop fmt printfmt fuel i ap = .ok out := by
  induction fuel generalizing i ap with
  | zero => omega
  | succ fuel ih =>
    cases hdrop : fmt.chars.drop i with
    | nil =>
      right
      rw [loop, CString.read_first hdrop hi]
      exact ⟨[], rfl⟩
    | cons c t =>
      have hlt : i < fmt.chars.length := by
        by_contra hle
        rw [List.drop_eq_nil_of_le (by omega)] at hdrop
        cases hdrop
      rw [loop, CString.read_of_drop hdrop]
      simp only [bind, Except.bind]
      by_cases hc : c ≠ '%'
      · rw [if_pos hc]
        by_cases hnul : c = nul
        · rw [if_pos hnul]
          exact .inr ⟨[], rfl⟩
        · rw [if_neg hnul]
          obtain hva | ⟨out, hout⟩ := ih (by omega : i + 1 ≤ _) (by omega) ap
          · exact .inl (by rw [hva])
          · exact .inr ⟨c :: out, by rw [hout]; rfl⟩
      · rw [if_neg hc]
        rw [not_not.1 hc] at hdrop
        obtain hva | ⟨i', ap', out, hout, hlt', hle⟩ := escape_cases h hdrop ap
        · exact .inl (by rw [hva])
        · rw [hout]
          obtain hva | ⟨out', hout'⟩ := ih hle (by omega) ap'
          · exact .inl (by simp only [hva])
          · exact .inr ⟨out ++ out', by simp only [hout']; rfl⟩

/-- More fuel changes nothing. -/
theorem loop_mono {r : Except Stop Text} (h : loop fmt printfmt fuel i ap = r)
    (hr : r ≠ .error .outOfFuel) (k : ℕ) : loop fmt printfmt (fuel + k) i ap = r := by
  induction fuel generalizing i ap r with
  | zero => exact absurd h.symm hr
  | succ fuel ih =>
    have hswap : fuel + 1 + k = fuel + k + 1 := by omega
    have hlater : ∀ {i ap}, loop fmt printfmt fuel i ap ≠ .error .outOfFuel →
        loop fmt printfmt (fuel + k) i ap = loop fmt printfmt fuel i ap := ih rfl
    rw [hswap, loop]
    rw [loop] at h
    cases hread : fmt.read i with
    | error e =>
      rw [hread] at h
      exact h
    | ok c =>
      rw [hread] at h
      simp only [bind, Except.bind] at h ⊢
      by_cases hc : c ≠ '%'
      · rw [if_pos hc] at h ⊢
        by_cases hnul : c = nul
        · rw [if_pos hnul] at h ⊢
          exact h
        · rw [if_neg hnul] at h ⊢
          rw [hlater]
          · exact h
          · intro hfuel
            rw [hfuel] at h
            exact hr h.symm
      · rw [if_neg hc] at h ⊢
        cases hescape : escape fmt printfmt (fmt.chars.length + 1) (i + 1) {} ap with
        | error e =>
          rw [hescape] at h
          exact h
        | ok q =>
          rw [hescape] at h
          dsimp only at h ⊢
          rw [hlater]
          · exact h
          · intro hfuel
            rw [hfuel] at h
            exact hr h.symm

/-! ## Printing from a position on -/

/-- What is printed for the format from a position on. -/
def PrintsFrom (fmt : CString) (i : ℕ) (ap : List Arg) (out : Text) : Prop :=
  ∃ fuel, loop fmt (vprintfmtWithin 1) fuel i ap = .ok out

theorem printsMessages : PrintsMessages (vprintfmtWithin 1) :=
  ⟨fun _ => ⟨_, rfl⟩, fun _ => ⟨_, rfl⟩⟩

theorem vprintfmt_eq_ok_iff : vprintfmt fmt ap = .ok out ↔ PrintsFrom fmt 0 ap out := by
  constructor
  · intro h
    exact ⟨_, h⟩
  · rintro ⟨fuel, h⟩
    have hmono := loop_mono h (by simp) (fmt.chars.length + 1)
    have hfuel : fmt.chars.length - 0 < fmt.chars.length + 1 := by omega
    obtain hva | ⟨out', hout⟩ := loop_ok printsMessages (Nat.zero_le _) hfuel ap
    · have hmono' := loop_mono hva (by simp) fuel
      rw [Nat.add_comm, hmono] at hmono'
      cases hmono'
    · have hmono' := loop_mono hout (by simp) fuel
      rw [Nat.add_comm, hmono] at hmono'
      cases hmono'
      exact hout

theorem PrintsFrom.unique {out' : Text} (h : PrintsFrom fmt i ap out)
    (h' : PrintsFrom fmt i ap out') : out = out' := by
  obtain ⟨fuel, h⟩ := h
  obtain ⟨fuel', h'⟩ := h'
  have hmono := loop_mono h (by simp) fuel'
  rw [Nat.add_comm, loop_mono h' (by simp) fuel] at hmono
  exact (Except.ok.inj hmono).symm

theorem PrintsFrom.end (fmt : CString) (ap : List Arg) :
    PrintsFrom fmt fmt.chars.length ap [] := by
  refine ⟨1, ?_⟩
  rw [loop, fmt.read_length]
  rfl

theorem PrintsFrom.cons (hdrop : fmt.chars.drop i = c :: t) (hc : c ≠ '%')
    (h : PrintsFrom fmt (i + 1) ap out) : PrintsFrom fmt i ap (c :: out) := by
  obtain ⟨fuel, h⟩ := h
  have hnul : c ≠ nul := by
    rintro rfl
    exact fmt.noNul (List.mem_of_mem_drop (hdrop ▸ List.mem_cons_self))
  refine ⟨fuel + 1, ?_⟩
  rw [loop, CString.read_of_drop hdrop]
  simp only [bind, Except.bind, if_pos hc, if_neg hnul, h]
  rfl

/-- Characters other than `%` are printed as they are. -/
theorem PrintsFrom.text (hdrop : fmt.chars.drop i = s ++ t) (hs : ∀ c ∈ s, c ≠ '%')
    (h : PrintsFrom fmt (i + s.length) ap out) : PrintsFrom fmt i ap (s ++ out) := by
  induction s generalizing i with
  | nil => exact h
  | cons c s ih =>
    have hplace : i + (c :: s).length = i + 1 + s.length := by
      rw [List.length_cons]
      omega
    rw [hplace] at h
    exact .cons hdrop (hs c List.mem_cons_self)
      (ih (drop_succ_of_drop hdrop) (fun d hd => hs d (List.mem_cons_of_mem _ hd)) h)

theorem PrintsFrom.escape {i' : ℕ} {out' : Text} (hdrop : fmt.chars.drop i = '%' :: t)
    (hescape : escape fmt (vprintfmtWithin 1) (fmt.chars.length + 1) (i + 1) {} ap =
      .ok (i', ap', out)) (h : PrintsFrom fmt i' ap' out') :
    PrintsFrom fmt i ap (out ++ out') := by
  obtain ⟨fuel, h⟩ := h
  refine ⟨fuel + 1, ?_⟩
  rw [loop, CString.read_of_drop hdrop]
  simp only [bind, Except.bind, ne_eq, not_true_eq_false, if_false, hescape, h]
  rfl

/-! ## Sequences without a meaning -/

theorem eq_of_caseOf_star (h : caseOf c = .star) : c = '*' := by
  by_contra hne
  have hite : ∀ (p : Prop) [Decidable p] (a b : Case), a ≠ .star → b ≠ .star →
      (if p then a else b) ≠ .star := by
    intro p _ a b ha hb
    split
    · exact ha
    · exact hb
  have hother : caseOf c ≠ .star := by
    unfold caseOf
    rw [if_neg hne]
    repeat' apply hite
    all_goals exact Case.noConfusion
  exact hother h

/-- The modifiers take one `int` for each star. -/
theorem scan_words {ns : List (BitVec 32)} (hns : ns.length = mods.count '*')
    (hmods : ∀ c ∈ mods, isModifier c = true) (v : Vars) (ap : List Arg) :
    ∃ v', scan mods v (ns.map .word ++ ap) = .ok (v', ap) := by
  induction hn : mods.length using Nat.strong_induction_on generalizing mods ns v with
  | h n ih =>
    cases mods with
    | nil =>
      rw [List.count_nil, List.length_eq_zero_iff] at hns
      rw [hns, scan]
      exact ⟨v, rfl⟩
    | cons c mods =>
      have hmods' : ∀ d ∈ mods, isModifier d = true :=
        fun d hd => hmods d (List.mem_cons_of_mem _ hd)
      have hc := hmods c List.mem_cons_self
      rw [List.length_cons] at hn
      have hstar : caseOf '*' = .star := by decide
      have hcount : caseOf c ≠ .star → ns.length = mods.count '*' := by
        intro hne
        rw [hns, List.count_cons_of_ne]
        rintro rfl
        exact hne hstar
      have hnext := fun v (hne : caseOf c ≠ .star) =>
        ih mods.length (by omega) (hcount hne) hmods' v rfl
      rw [isModifier] at hc
      rw [scan]
      cases hcase : caseOf c with
      | minus | zero | dot | sharp | long =>
        exact hnext _ (by rw [hcase]; exact Case.noConfusion)
      | star =>
        rw [eq_of_caseOf_star hcase, List.count_cons_self] at hns
        cases ns with
        | nil => cases hns
        | cons m ns => exact ih mods.length (by omega) (Nat.succ.inj hns) hmods' _ rfl
      | digit =>
        have hsplit := List.takeWhile_append_dropWhile (p := isDigit) (l := mods)
        have hstars : (mods.takeWhile isDigit).count '*' = 0 := by
          rw [List.count_eq_zero]
          intro hmem
          have hdigit := List.mem_takeWhile_imp hmem
          revert hdigit
          decide
        have hcount' := hcount (by rw [hcase]; exact Case.noConfusion)
        rw [← hsplit, List.count_append, hstars, Nat.zero_add] at hcount'
        have hrest := (List.dropWhile_suffix isDigit (l := mods)).length_le
        exact ih _ (by omega) hcount'
          (fun d hd => hmods' d ((List.dropWhile_suffix isDigit).subset hd)) _ rfl
      | _ =>
        rw [hcase] at hc
        cases hc

/-- A sequence that means nothing is printed literally. -/
theorem PrintsFrom.default {ns : List (BitVec 32)}
    (hchars : fmt.chars = pre ++ '%' :: (mods ++ s ++ t))
    (hmods : ∀ c ∈ mods, isModifier c = true) (hns : ns.length = mods.count '*')
    (hfirst : caseOf (first (s ++ t)) = .default) (hs : ∀ c ∈ s, c ≠ '%')
    (h : PrintsFrom fmt (pre.length + 1 + (mods ++ s).length) ap out) :
    PrintsFrom fmt pre.length (ns.map .word ++ ap) ('%' :: (mods ++ s ++ out)) := by
  have hdrop : fmt.chars.drop pre.length = '%' :: (mods ++ (s ++ t)) := by
    rw [hchars, drop_prefix, List.append_assoc]
  have hrest : fmt.chars.drop (pre.length + 1) = (mods ++ s) ++ t := by
    rw [List.append_assoc]
    exact drop_succ_of_drop hdrop
  obtain ⟨v, hscan⟩ := scan_words hns hmods {} ap
  have hescape := escape_default (vprintfmtWithin 1) hdrop hmods hfirst
    (ns.map .word ++ ap)
  rw [hscan] at hescape
  refine PrintsFrom.escape hdrop hescape (h.text hrest fun c hc => ?_)
  obtain hc | hc := List.mem_append.1 hc
  · exact not_percent_of_isModifier (hmods c hc)
  · exact hs c hc

end Courses.Jos.Printfmt
