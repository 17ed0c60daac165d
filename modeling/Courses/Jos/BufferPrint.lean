import Courses.Jos.NumberFormat

/-!
# Printing into a buffer

`sprintputch` stores the characters that fit and counts all of them. The count is an `int`, so
it is the length of the output as long as the output is shorter than `2 ^ 31`.
-/
namespace Courses.Jos.Printfmt

open Courses.Lib

variable {mem : ℕ → Char} {buf ebuf a : ℕ} {s out : Text} {fmt : CString} {ap : List Arg}

/-- The memory after characters have been stored from an address on. -/
def store (mem : ℕ → Char) (buf : ℕ) : Text → ℕ → Char
  | [] => mem
  | c :: s => store (Function.update mem buf c) (buf + 1) s

theorem store_of_lt (h : a < buf) (s : Text) : store mem buf s a = mem a := by
  induction s generalizing mem buf with
  | nil => rfl
  | cons c s ih => rw [store, ih (by omega), Function.update_of_ne (by omega)]

theorem store_of_le (h : buf + s.length ≤ a) : store mem buf s a = mem a := by
  induction s generalizing mem buf with
  | nil => rfl
  | cons c s ih =>
    rw [List.length_cons] at h
    rw [store, ih (by omega), Function.update_of_ne (by omega)]

theorem map_store (mem : ℕ → Char) (buf : ℕ) (s : Text) :
    (List.range s.length).map (fun k => store mem buf s (buf + k)) = s := by
  induction s generalizing mem buf with
  | nil => rfl
  | cons c s ih =>
    have hlater := ih (Function.update mem buf c) (buf + 1)
    rw [List.length_cons, List.range_succ_eq_map, List.map_cons, List.map_map]
    congr 1
    · rw [Nat.add_zero, store, store_of_lt (by omega), Function.update_self]
    · refine Eq.trans (List.map_congr_left fun k _ => ?_) hlater
      have hplace : buf + (k + 1) = buf + 1 + k := by omega
      rw [Function.comp_apply, store, hplace]

theorem int32_int32_add (x y : ℤ) : int32 (int32 x + y) = int32 (x + y) :=
  Int.bmod_add_bmod

/-- The characters that fit are stored, and all are counted. -/
theorem foldl_sprintputch (mem : ℕ → Char) (hle : buf ≤ ebuf) (cnt : ℤ) (out : Text) :
    out.foldl sprintputch ⟨mem, buf, ebuf, int32 cnt⟩ =
      ⟨store mem buf (out.take (ebuf - buf)), buf + (out.take (ebuf - buf)).length, ebuf,
        int32 (cnt + out.length)⟩ := by
  induction out generalizing mem buf cnt with
  | nil => simp [store]
  | cons c out ih =>
    have hcount : cnt + (c :: out).length = cnt + 1 + out.length := by
      rw [List.length_cons]
      push_cast
      ring
    rw [List.foldl_cons, hcount]
    obtain rfl | hlt := hle.eq_or_lt
    · have hnext : sprintputch ⟨mem, buf, buf, int32 cnt⟩ c = ⟨mem, buf, buf, int32 (cnt + 1)⟩ := by
        simp [sprintputch, int32_int32_add]
      have hlater := ih mem le_rfl (cnt + 1)
      rw [Nat.sub_self, List.take_zero] at hlater ⊢
      rw [hnext, hlater]
    · have hnext : sprintputch ⟨mem, buf, ebuf, int32 cnt⟩ c =
          ⟨Function.update mem buf c, buf + 1, ebuf, int32 (cnt + 1)⟩ := by
        simp [sprintputch, hlt, int32_int32_add]
      obtain ⟨k, hk⟩ : ∃ k, ebuf - buf = k + 1 := ⟨ebuf - buf - 1, by omega⟩
      have hk' : ebuf - (buf + 1) = k := by omega
      have hlater := ih (Function.update mem buf c) (by omega : buf + 1 ≤ ebuf) (cnt + 1)
      rw [hnext, hlater, hk, hk', List.take_succ_cons, store, List.length_cons]
      congr 1
      omega

theorem vsnprintf_eq {n : ℤ} (hbuf : buf ≠ 0) (hn : 1 ≤ n) (hout : vprintfmt fmt ap = .ok out) :
    vsnprintf mem buf n fmt ap = .ok (int32 out.length,
      Function.update (store mem buf (out.take (n - 1).toNat))
        (buf + (out.take (n - 1).toNat).length) nul) := by
  have hebuf : ((buf : ℤ) + n - 1).toNat - buf = (n - 1).toNat := by omega
  have hzero : int32 0 = 0 := rfl
  have hfold := foldl_sprintputch mem (by omega : buf ≤ ((buf : ℤ) + n - 1).toNat) 0 out
  rw [hzero, hebuf, Int.zero_add] at hfold
  have hcond : ¬ (buf = 0 ∨ n < 1) := by omega
  rw [vsnprintf, if_neg hcond, hout]
  simp only [bind, Except.bind, hfold]
  rfl

/-- The first `n - 1` characters and a NUL are in the buffer. -/
theorem buffer_after (mem : ℕ → Char) (buf k : ℕ) (out : Text) :
    (List.range (min k out.length + 1)).map
        (fun j => Function.update (store mem buf (out.take k)) (buf + (out.take k).length) nul
          (buf + j)) = out.take k ++ [nul] := by
  have hmap := map_store mem buf (out.take k)
  rw [← List.length_take, List.range_succ, List.map_append, List.map_singleton,
    Function.update_self]
  congr 1
  conv_rhs => rw [← hmap]
  apply List.map_congr_left
  intro j hj
  rw [List.mem_range] at hj
  rw [Function.update_of_ne (by omega)]

/-- A format is read up to its end at most, and a sequence without a meaning is printed
literally. Only the buffer is written to, and it gets the beginning of the output. -/
theorem vprintfmt_safe :
    (∀ fmt ap, (∃ out, vprintfmt fmt ap = .ok out) ∨ vprintfmt fmt ap = .error .vaArg) ∧
    (∀ (fmt : CString) (pre mods t out : Text) (c : Char) (ns : List (BitVec 32))
      (ap : List Arg), fmt.chars = pre ++ '%' :: (mods ++ c :: t) →
      (∀ d ∈ mods, isModifier d = true) → caseOf c = .default → ns.length = mods.count '*' →
      PrintsFrom fmt (pre.length + mods.length + 2) ap out →
      PrintsFrom fmt pre.length (ns.map .word ++ ap) ('%' :: (mods ++ c :: out))) ∧
    (∀ (fmt : CString) (pre mods : Text) (ns : List (BitVec 32)) (ap : List Arg),
      fmt.chars = pre ++ '%' :: mods → (∀ d ∈ mods, isModifier d = true) →
      ns.length = mods.count '*' →
      PrintsFrom fmt pre.length (ns.map .word ++ ap) ('%' :: mods)) ∧
    ∀ (mem : ℕ → Char) (buf : ℕ) (n : ℤ) (fmt : CString) (ap : List Arg) (out : Text),
      buf ≠ 0 → 1 ≤ n → vprintfmt fmt ap = .ok out →
      ∃ r mem', vsnprintf mem buf n fmt ap = .ok (r, mem') ∧
        (out.length < 2 ^ 31 → r = out.length) ∧
        (∀ a, (a < buf ∨ (buf : ℤ) + n ≤ a) → mem' a = mem a) ∧
        (List.range (min (n - 1).toNat out.length + 1)).map (fun j => mem' (buf + j)) =
          out.take (n - 1).toNat ++ [nul] := by
  refine ⟨?_, ?_, ?_, ?_⟩
  · intro fmt ap
    exact (loop_ok printsMessages (Nat.zero_le _) (by omega) ap).symm
  · intro fmt pre mods t out c ns ap hchars hmods hc hns h
    have hpercent : c ≠ '%' := by
      rintro rfl
      revert hc
      decide
    have hchars' : fmt.chars = pre ++ '%' :: (mods ++ [c] ++ t) := by
      rw [hchars, List.append_assoc]
      rfl
    have hplace : pre.length + 1 + (mods ++ [c]).length = pre.length + mods.length + 2 := by
      rw [List.length_append, List.length_singleton]
      omega
    have hprints := PrintsFrom.default hchars' hmods hns hc
      (fun d hd => List.mem_singleton.1 hd ▸ hpercent) (hplace ▸ h)
    rwa [List.append_assoc] at hprints
  · intro fmt pre mods ns ap hchars hmods hns
    have hchars' : fmt.chars = pre ++ '%' :: (mods ++ [] ++ []) := by simp [hchars]
    have hplace : pre.length + 1 + (mods ++ []).length = fmt.chars.length := by
      rw [hchars]
      simp
      omega
    have hprints := PrintsFrom.default hchars' hmods hns (by decide) (by simp)
      (hplace ▸ PrintsFrom.end fmt ap)
    simpa using hprints
  · intro mem buf n fmt ap out hbuf hn hout
    refine ⟨_, _, vsnprintf_eq hbuf hn hout, ?_, ?_, buffer_after mem buf _ out⟩
    · intro hlt
      exact int32_eq (by omega) (by exact_mod_cast hlt)
    · intro a ha
      have hlength := List.length_take_le (n - 1).toNat out
      rw [Function.update_of_ne (by omega)]
      obtain ha | ha := ha
      · exact store_of_lt ha _
      · exact store_of_le (by omega)

theorem nul_notMem_unknown : nul ∉ "%5q".toList := by decide

def unknownFormat : CString := ⟨"%5q".toList, nul_notMem_unknown⟩

theorem vprintfmt_safe_unknown :
    PrintsFrom unknownFormat 0 [] "%5q".toList ∧
      ∃ r mem', vsnprintf (fun _ => 'z') 1 3 unknownFormat [] = .ok (r, mem') ∧
        r = 3 ∧ mem' 0 = 'z' ∧ mem' 4 = 'z' ∧
        (List.range 3).map (fun j => mem' (1 + j)) = ['%', '5', nul] := by
  have hout : vprintfmt unknownFormat [] = .ok "%5q".toList := by rfl
  constructor
  · exact vprintfmt_safe.2.1 unknownFormat [] ['5'] [] [] 'q' [] [] rfl
      (List.forall_mem_singleton.2 rfl) rfl rfl (PrintsFrom.end _ _)
  · have hprint := vprintfmt_safe.2.2.2 (fun _ => 'z') 1 3 unknownFormat [] "%5q".toList
      one_ne_zero (by decide) hout
    obtain ⟨r, mem', hrun, hr, hframe, hbuffer⟩ := hprint
    exact ⟨r, mem', hrun, hr (by decide), hframe 0 (.inl Nat.one_pos),
      hframe 4 (.inr (by decide)), hbuffer⟩

section WideField

variable {w : ℕ} (hpos : 0 < w) (hlt : w < 2 ^ 31)

def wideDirective : Text := directive .none (.digits w hpos hlt) .int .d

theorem nul_notMem_wideFormat : nul ∉ 'a' :: wideDirective hpos hlt := by
  rw [List.mem_cons, not_or]
  exact ⟨by decide, nul_notMem_directive _ _ _ _⟩

/-- A character, and a number in a field. -/
def wideFormat : CString := ⟨'a' :: wideDirective hpos hlt, nul_notMem_wideFormat hpos hlt⟩

theorem vprintfmt_wideFormat :
    ∃ out, vprintfmt (wideFormat hpos hlt) [.word 0] = .ok out ∧ out.length = w + 1 := by
  have hzero : digitText 10 0 = ['0'] := by
    rw [digitText, numeral_of_lt (by decide)]
    rfl
  have hchars : (wideFormat hpos hlt).chars = ['a'] ++ (wideDirective hpos hlt ++ []) := by
    rw [List.append_nil]
    rfl
  have hend : PrintsFrom (wideFormat hpos hlt) (['a'].length + (wideDirective hpos hlt).length)
      [] [] := by
    have hlength : ['a'].length + (wideDirective hpos hlt).length =
        (wideFormat hpos hlt).chars.length := by
      rw [hchars, List.append_nil, List.length_append]
    rw [hlength]
    exact PrintsFrom.end _ _
  have hnumber := PrintsFrom.number hchars (.ofNat 32 0) hend
  have hprints := PrintsFrom.cons (i := 0) (c := 'a') rfl (by decide) hnumber
  refine ⟨_, vprintfmt_eq_ok_iff.2 hprints, ?_⟩
  have hlength : (sign 0 ++ (List.replicate (w - (digitText 10 0).length) ' ' ++
      digitText 10 0) ++ []).length + 1 = w + 1 := by
    rw [hzero]
    simp [sign]
    omega
  exact hlength

end WideField

theorem widest_pos : 0 < 2 ^ 31 - 1 := by decide

theorem widest_lt : 2 ^ 31 - 1 < 2 ^ 31 := by decide

/-- The count of `2 ^ 31` characters is negative. -/
theorem vsnprintf_wideFormat :
    ∃ out, vprintfmt (wideFormat widest_pos widest_lt) [.word 0] = .ok out ∧
      (vsnprintf (fun _ => nul) 1 1 (wideFormat widest_pos widest_lt) [.word 0]).map Prod.fst =
        .ok (-2 ^ 31) ∧
      (out.length : ℤ) ≠ -2 ^ 31 := by
  obtain ⟨out, hout, hlength⟩ := vprintfmt_wideFormat widest_pos widest_lt
  refine ⟨out, hout, ?_, by omega⟩
  have hcount : int32 (out.length : ℤ) = -2 ^ 31 := by
    rw [hlength]
    rfl
  rw [vsnprintf_eq one_ne_zero le_rfl hout, hcount]
  rfl

end Courses.Jos.Printfmt
