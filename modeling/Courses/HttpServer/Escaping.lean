import Courses.HttpServer.Connection
import Courses.Lib.Substitution

/-!
# Escaped text

`EscapeHTML` makes five replacements over the whole string, the ampersand first. The
entities hold no other character that is replaced, so the result is what a substitution of
all five characters at once gives; and no entity begins another, so the text can be read
back.
-/
namespace Courses.HttpServer

open Lib

/-- What stands for a character in escaped text. -/
@[grind]
def entity (c : UInt8) : List UInt8 :=
  if c = 38 then ascii "&amp;"
  else if c = 34 then ascii "&quot;"
  else if c = 39 then ascii "&apos;"
  else if c = 60 then ascii "&lt;"
  else if c = 62 then ascii "&gt;"
  else [c]

/-- The characters that have an entity. -/
def special : List UInt8 := [38, 34, 39, 60, 62]

def entities : List (List UInt8) := special.map entity

def replacements : List (Substitution.Rule UInt8) :=
  [(38, ascii "&amp;"), (34, ascii "&quot;"), (39, ascii "&apos;"), (60, ascii "&lt;"),
    (62, ascii "&gt;")]

theorem escapeHTML_eq_replaceEach (source : List UInt8) :
    escapeHTML source = Substitution.replaceEach replacements source := rfl

theorem word_replacements : Substitution.word replacements = entity := funext fun _ => rfl

theorem inOrder_replacements : Substitution.InOrder replacements := by
  with_unfolding_all decide

theorem escapeHTML_eq (source : List UInt8) : escapeHTML source = source.flatMap entity := by
  rw [escapeHTML_eq_replaceEach, Substitution.replaceEach_eq inOrder_replacements,
    word_replacements]

/-! ### The entities -/

theorem entity_of_not_special {c : UInt8} (h : c ∉ special) : entity c = [c] := by
  simp only [special, List.mem_cons, List.not_mem_nil, or_false, not_or] at h
  simp [entity, h]

theorem entity_of_special :
    ∀ c ∈ special, (entity c).head? = some 38 ∧ 2 ≤ (entity c).length ∧ 38 ∉ (entity c).tail ∧
      (∀ d ∈ [34, 39, 60, 62], d ∉ entity c) ∧
      ∀ d ∈ special, entity c <+: entity d → c = d := by
  decide +kernel

theorem entity_ne_nil (c : UInt8) : entity c ≠ [] := by
  by_cases hc : c ∈ special
  · intro h
    have hlength := (entity_of_special c hc).2.1
    simp [h] at hlength
  · simp [entity_of_not_special hc]

theorem ampersand_not_mem_tail (c : UInt8) : 38 ∉ (entity c).tail := by
  by_cases hc : c ∈ special
  · exact (entity_of_special c hc).2.2.1
  · simp [entity_of_not_special hc]

theorem not_mem_entity (c : UInt8) {d : UInt8} (hd : d ∈ [34, 39, 60, 62]) : d ∉ entity c := by
  by_cases hc : c ∈ special
  · exact (entity_of_special c hc).2.2.2.1 d hd
  · rw [entity_of_not_special hc, List.mem_singleton]
    rintro rfl
    exact hc (List.mem_cons_of_mem 38 hd)

theorem prefixFree_entity : Substitution.PrefixFree entity := by
  intro c d hcd
  by_cases hc : c ∈ special
  · by_cases hd : d ∈ special
    · exact (entity_of_special c hc).2.2.2.2 d hd hcd
    · -- an entity is longer than a single character
      have hlen := hcd.length_le
      rw [entity_of_not_special hd, List.length_singleton] at hlen
      have hlength := (entity_of_special c hc).2.1
      omega
  · rw [entity_of_not_special hc] at hcd
    have hhead : (entity d).head? = some c := by
      obtain ⟨rest, hrest⟩ := hcd
      rw [← hrest]
      rfl
    by_cases hd : d ∈ special
    · rw [(entity_of_special d hd).1, Option.some.injEq] at hhead
      exact absurd (hhead ▸ List.mem_cons_self) hc
    · rw [entity_of_not_special hd] at hhead
      exact (Option.some.inj hhead).symm

/-! ### The escaped text -/

/-- Escaping is the substitution of the five characters at once; no quote and no angle
bracket is left, each ampersand begins an entity, and different texts stay different. -/
theorem escapeHTML_spec :
    (∀ source : List UInt8, escapeHTML source = source.flatMap entity ∧
      (∀ c ∈ [34, 39, 60, 62], c ∉ escapeHTML source) ∧
      ∀ before after, escapeHTML source = before ++ 38 :: after →
        ∃ text ∈ entities, text <+: 38 :: after) ∧
    Function.Injective escapeHTML := by
  refine ⟨fun source => ⟨escapeHTML_eq source, ?_, ?_⟩, ?_⟩
  · intro c hc hmem
    rw [escapeHTML_eq, List.mem_flatMap] at hmem
    obtain ⟨b, -, hb⟩ := hmem
    exact not_mem_entity b hc hb
  · intro before after h
    rw [escapeHTML_eq] at h
    obtain ⟨b, -, hword, hhead⟩ := Substitution.prefix_of_flatMap_eq ampersand_not_mem_tail h
    refine ⟨entity b, ?_, hword⟩
    apply List.mem_map_of_mem
    by_contra hb
    rw [entity_of_not_special hb, List.head?_cons, Option.some.injEq] at hhead
    exact hb (hhead ▸ List.mem_cons_self)
  · have hinj := Substitution.flatMap_injective prefixFree_entity entity_ne_nil
    intro s t hst
    rw [escapeHTML_eq, escapeHTML_eq] at hst
    exact hinj hst

end Courses.HttpServer

/-!
# What `URIDecode` decodes

The decoder that an encoder has in mind goes over the string once and treats every
position alike. The loop of `URIDecode` is that decoder; in front of it stands an exit for
strings too short to hold an escape, which forgets that a `+` is one character long.
-/
namespace Courses.HttpServer

/-- The value of a hexadecimal digit of either case. -/
def hexDigit (c : UInt8) : Option ℕ :=
  if 48 ≤ c ∧ c ≤ 57 then some (c.toNat - 48)
  else if 65 ≤ c ∧ c ≤ 70 then some (c.toNat - 55)
  else if 97 ≤ c ∧ c ≤ 102 then some (c.toNat - 87)
  else none

/-- The character that `%xy` stands for. -/
def escape (x y : UInt8) : Option UInt8 := do
  let high ← hexDigit x
  let low ← hexDigit y
  let code := 16 * high + low
  if 32 ≤ code ∧ code ≤ 127 then some (UInt8.ofNat code) else none

/-- The decoder from left to right: `+` is a space, an escape its character, and everything
else is copied. -/
@[grind]
def decoded : List UInt8 → List UInt8
  | [] => []
  | c :: rest =>
    if c = 43 then
      32 :: decoded rest
    else if c = 37 then
      match rest with
      | x :: y :: later =>
        match escape x y with
        | some code => code :: decoded later
        | none => 37 :: decoded (x :: y :: later)
      | [x] => 37 :: decoded [x]
      | [] => [37]
    else
      c :: decoded rest

/-! ### The loop is this decoder -/

theorem hexDigit_ofNat : ∀ n < 256, hexDigit (UInt8.ofNat n) =
    if isHexDigit (toupper (UInt8.ofNat n)) then
      some (hexValue (toupper (UInt8.ofNat n))).toNat else none := by
  decide +kernel

theorem hexDigit_eq (c : UInt8) :
    hexDigit c = if isHexDigit (toupper c) then some (hexValue (toupper c)).toNat else none := by
  have hc := hexDigit_ofNat c.toNat c.toNat_lt
  rwa [UInt8.ofNat_toNat] at hc

theorem toNat_code {x y : UInt8} (hx : isHexDigit x = true) (hy : isHexDigit y = true) :
    (16 * hexValue x + hexValue y).toNat = 16 * (hexValue x).toNat + (hexValue y).toNat := by
  have hlt (c : UInt8) (hc : isHexDigit c = true) : (hexValue c).toNat < 16 := by
    have hall : ∀ n < 256, isHexDigit (UInt8.ofNat n) = true →
        (hexValue (UInt8.ofNat n)).toNat < 16 := by
      decide +kernel
    simpa using hall c.toNat c.toNat_lt (by simpa using hc)
  have hx := hlt x hx
  have hy := hlt y hy
  rw [UInt8.toNat_add, UInt8.toNat_mul]
  simp only [UInt8.reduceToNat]
  omega

/-- The tests of the loop on two characters that follow a percent sign. -/
theorem escape_eq (x y : UInt8) :
    escape x y =
      if isHexDigit (toupper x) ∧ isHexDigit (toupper y) ∧
          32 ≤ 16 * hexValue (toupper x) + hexValue (toupper y) ∧
          16 * hexValue (toupper x) + hexValue (toupper y) ≤ 127 then
        some (16 * hexValue (toupper x) + hexValue (toupper y))
      else
        none := by
  rw [escape, hexDigit_eq, hexDigit_eq]
  by_cases hx : isHexDigit (toupper x) = true
  · by_cases hy : isHexDigit (toupper y) = true
    · have hcode := toNat_code hx hy
      have hlow : 32 ≤ 16 * hexValue (toupper x) + hexValue (toupper y) ↔
          32 ≤ 16 * (hexValue (toupper x)).toNat + (hexValue (toupper y)).toNat := by
        rw [← hcode]
        exact UInt8.le_iff_toNat_le
      have hhigh : 16 * hexValue (toupper x) + hexValue (toupper y) ≤ 127 ↔
          16 * (hexValue (toupper x)).toNat + (hexValue (toupper y)).toNat ≤ 127 := by
        rw [← hcode]
        exact UInt8.le_iff_toNat_le
      simp only [hx, hy, if_true, Option.bind_eq_bind, Option.bind_some, true_and, hlow, hhigh,
        ← hcode, UInt8.ofNat_toNat]
    · simp [hx, hy]
  · simp [hx]

theorem uriDecodeLoop_escape (x y : UInt8) (later : List UInt8) :
    uriDecodeLoop 0 (37 :: x :: y :: later) =
      match escape x y with
      | some code => code :: uriDecodeLoop 0 later
      | none => 37 :: uriDecodeLoop 0 (x :: y :: later) := by
  have hskip : uriDecodeLoop 2 (x :: y :: later) = uriDecodeLoop 0 later := rfl
  rw [escape_eq, uriDecodeLoop, hskip]
  generalize uriDecodeLoop 0 (x :: y :: later) = copied
  simp only [List.getElem?_cons_zero, List.getElem?_cons_succ, Option.map_some, Option.getD_some]
  cases isHexDigit (toupper x)
  · simp
  · cases isHexDigit (toupper y)
    · simp
    · by_cases hcode : 32 ≤ 16 * hexValue (toupper x) + hexValue (toupper y) ∧
          16 * hexValue (toupper x) + hexValue (toupper y) ≤ 127
      · simp [hcode]
      · simp only [hcode]
        simp

theorem uriDecodeLoop_zero (s : List UInt8) : uriDecodeLoop 0 s = decoded s := by
  induction s using decoded.induct with
  | case1 => rfl
  | case2 rest ih =>
    rw [decoded.eq_def, uriDecodeLoop, ih]
    rfl
  | case3 x y later code hcode _ ih =>
    rw [decoded.eq_def, uriDecodeLoop_escape, hcode, ih]
    simp [hcode]
  | case4 x y later hcode _ ih =>
    rw [decoded.eq_def, uriDecodeLoop_escape, hcode, ih]
    simp [hcode]
  | case5 x _ ih =>
    -- one character behind the percent sign: there is no second digit
    rw [decoded.eq_def, uriDecodeLoop, ih]
    simp [isHexDigit]
  | case6 => decide
  | case7 c rest hplus hpercent ih =>
    rw [decoded.eq_def, uriDecodeLoop, ih]
    simp [hplus, hpercent]

/-! ### Where the exit for short strings is wrong -/

/-- A percent sign with fewer than two characters behind it is copied. -/
theorem decoded_cons_of_short (c : UInt8) {rest : List UInt8} (h : rest.length < 2) :
    decoded (c :: rest) = (if c = 43 then 32 else c) :: decoded rest := by
  match rest, h with
  | [], _ =>
    rw [decoded.eq_def]
    by_cases hpercent : c = 37
    · subst hpercent
      rfl
    · simp only [hpercent, if_false]
      split <;> rfl
  | [x], _ =>
    rw [decoded.eq_def]
    by_cases hpercent : c = 37
    · subst hpercent
      rfl
    · simp only [hpercent, if_false]
      split <;> rfl

theorem decoded_of_short {s : List UInt8} (h : s.length < 3) :
    decoded s = s.map fun c => if c = 43 then 32 else c := by
  induction s with
  | nil => rfl
  | cons c s ih =>
    rw [List.length_cons] at h
    rw [decoded_cons_of_short c (by omega), ih (by omega), List.map_cons]

theorem decoded_eq_self_iff {s : List UInt8} (h : s.length < 3) : decoded s = s ↔ 43 ∉ s := by
  rw [decoded_of_short h]
  clear h
  induction s with
  | nil => simp
  | cons c s ih =>
    rw [List.map_cons, List.cons.injEq, ih, List.mem_cons, not_or]
    refine and_congr_left fun _ => ?_
    split
    · rename_i hplus
      simp [hplus]
    · rename_i hplus
      simp [Ne.symm hplus]

/-- `URIDecode` is the decoder exactly for the strings that are long enough to hold an escape
or have no `+` in them, and whose positions can be counted. -/
theorem uriDecode_eq_decoded_iff (s : List UInt8) :
    uriDecode s = some (decoded s) ↔ (3 ≤ s.length ∨ 43 ∉ s) ∧ s.length < 2 ^ 32 := by
  unfold uriDecode
  split
  · rename_i hshort
    have hlt : s.length < 2 ^ 32 := by omega
    rw [Option.some.injEq, eq_comm, decoded_eq_self_iff hshort]
    constructor
    · intro h
      exact ⟨.inr h, hlt⟩
    · rintro ⟨hlong | h, -⟩
      · omega
      · exact h
  · split
    · rename_i hlong
      constructor
      · intro h
        cases h
      · intro h
        omega
    · rename_i hlong hlt
      rw [uriDecodeLoop_zero]
      exact ⟨fun _ => ⟨.inl (by omega), by omega⟩, fun _ => rfl⟩

/-- A field that is a single blank, as a browser encodes it. -/
theorem uriDecode_plus : ¬ uriDecode [43] = some (decoded [43]) := by decide

end Courses.HttpServer
