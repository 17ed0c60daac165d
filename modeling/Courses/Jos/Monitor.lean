import Courses.Jos.Display
import Courses.Lib.Sessions
import Mathlib.Data.List.Forall2

/-!
# The monitor

`lib/readline.c` and `kern/monitor.c`. A line is typed with erasing, echoed, cut in place into the
words of a command, and the command is run. The program stands still only in `getchar`, so a step
is what it does from one key to the next.
-/
namespace Courses.Jos.Monitor

open Courses.Lib Courses.Jos.Strings Courses.Jos.Display

/-! ## Lines -/

/-- `BUFLEN` -/
def buflen : ℕ := 1024

structure Line where
  buf : Memory UInt8
  i : ℕ

/-- How `readline` goes on after a key. -/
inductive Turn
  | again (l : Line)
  | done (buf : Memory UInt8)

/-- The loop of `readline` from one key to the next, with what it echoes; `iscons` is always 1. -/
@[grind]
def readlineTurn (l : Line) (c : UInt8) : List UInt8 × Turn :=
  if (c = 8 ∨ c = 0x7F) ∧ l.i > 0 then ([8], .again { l with i := l.i - 1 })
  else if c ≥ 32 ∧ l.i < buflen - 1 then
    ([c], .again ⟨Function.update l.buf l.i c, l.i + 1⟩)
  else if c = 10 ∨ c = 13 then ([10], .done (Function.update l.buf l.i 0))
  else ([], .again l)

/-! ## Commands -/

/-- A call of `cprintf`. -/
inductive Arg
  | int (n : ℤ)
  | str (s : List UInt8)
  | word (n : BitVec 32)

structure Printed where
  format : String
  args : List Arg

def ofString (s : String) : List UInt8 := s.toList.map fun c => UInt8.ofNat c.toNat

/-- The symbols of the linker. -/
structure Symbols where
  start : BitVec 32
  entry : BitVec 32
  etext : BitVec 32
  edata : BitVec 32
  last : BitVec 32

inductive Func
  | help
  | kerninfo

structure Command where
  name : String
  desc : String
  func : Func

def commands : List Command :=
  [⟨"help", "Display this list of commands", .help⟩,
    ⟨"kerninfo", "Display information about the kernel", .kerninfo⟩]

def monHelp : List Printed :=
  commands.map fun c => ⟨"%s - %s\n", [.str (ofString c.name), .str (ofString c.desc)]⟩

def kernbase : BitVec 32 := 0xF0000000

/-- `ROUNDUP(n, 1024) / 1024` with numbers of 32 bits -/
def kilobytes (n : BitVec 32) : BitVec 32 :=
  let up := n + 1024 - 1
  (up - up % 1024) / 1024

def monKerninfo (sym : Symbols) : List Printed :=
  [⟨"Special kernel symbols:\n", []⟩,
    ⟨"  _start                  %08x (phys)\n", [.word sym.start]⟩,
    ⟨"  entry  %08x (virt)  %08x (phys)\n", [.word sym.entry, .word (sym.entry - kernbase)]⟩,
    ⟨"  etext  %08x (virt)  %08x (phys)\n", [.word sym.etext, .word (sym.etext - kernbase)]⟩,
    ⟨"  edata  %08x (virt)  %08x (phys)\n", [.word sym.edata, .word (sym.edata - kernbase)]⟩,
    ⟨"  end    %08x (virt)  %08x (phys)\n", [.word sym.last, .word (sym.last - kernbase)]⟩,
    ⟨"Kernel executable memory footprint: %dKB\n",
      [.word (kilobytes (sym.last - sym.entry))]⟩]

/-- What a command prints, and what it returns. -/
def Func.run (sym : Symbols) : Func → List Printed × ℤ
  | help => (monHelp, 0)
  | kerninfo => (monKerninfo sym, 0)

/-- `WHITESPACE` -/
def whitespace : List UInt8 := [9, 13, 10, 32]

/-- `strchr(WHITESPACE, c)` is not null. -/
def isWhite (c : UInt8) : Bool :=
  ((strchr (fun a => whitespace.getD a 0) 5 0 c).getD none).isSome

/-- `MAXARGS` -/
def maxargs : ℕ := 16

/-- The loop that gobbles whitespace: it overwrites it with zeros. -/
@[grind]
def gobble : ℕ → Memory UInt8 → ℕ → Option (Memory UInt8 × ℕ)
  | 0, _, _ => none
  | fuel + 1, buf, p =>
    if buf p ≠ 0 ∧ isWhite (buf p) then gobble fuel (Function.update buf p 0) (p + 1)
    else some (buf, p)

/-- The loop that cuts the buffer, with `argv`, or nothing when there are too many arguments. -/
@[grind]
def cut : ℕ → Memory UInt8 → ℕ → List ℕ → Option (Memory UInt8 × Option (List ℕ))
  | 0, _, _, _ => none
  | fuel + 1, buf, p, argv => do
    let (buf, p) ← gobble (fuel + 1) buf p
    if buf p = 0 then return (buf, some argv)
    else if argv.length = maxargs - 1 then return (buf, none)
    else
      let next ← seek (fun c => c = 0 || isWhite c) buf (fuel + 1) p
      cut fuel buf next (argv ++ [p])

/-- The loop over the commands. -/
@[grind]
def lookup (buf : Memory UInt8) (argv0 : ℕ) : List Command → Option (Option Func)
  | [] => some none
  | c :: cs => do
    let cmp ← strcmp buf (fun a => (ofString c.name).getD a 0) buflen argv0 0
    if cmp = 0 then return some c.func else lookup buf argv0 cs

/-- `runcmd`. No loop looks at more than the buffer. -/
def runcmd (sym : Symbols) (buf : Memory UInt8) : Option (Memory UInt8 × List Printed × ℤ) := do
  let (buf, argv) ← cut buflen buf 0 []
  match argv with
  | none => return (buf, [⟨"Too many arguments (max %d)\n", [.int maxargs]⟩], 0)
  | some [] => return (buf, [], 0)
  | some (argv0 :: _) =>
    match ← lookup buf argv0 commands with
    | some func => return (buf, (func.run sym).1, (func.run sym).2)
    | none =>
      let name ← readString buf buflen argv0
      return (buf, [⟨"Unknown command '%s'\n", [.str name]⟩], 0)

/-! ## The loop of the monitor -/

/-- The program waits for a key, or `monitor` has returned. -/
inductive State
  | waiting (l : Line)
  | returned

/-- What comes out on the console. -/
inductive Item
  | echo (c : UInt8)
  | printed (call : Printed)

def promptCall : Printed := ⟨"%s", [.str (ofString "K> ")]⟩

/-- What the program does with a key until it waits again. -/
def step (sym : Symbols) (s : State) (c : UInt8) : Option (List Item × State) :=
  match s with
  | .returned => some ([], .returned)
  | .waiting l =>
    match readlineTurn l c with
    | (echo, .again l) => some (echo.map .echo, .waiting l)
    | (echo, .done buf) => do
      let (buf, calls, ret) ← runcmd sym buf
      if ret < 0 then return (echo.map .echo ++ calls.map .printed, .returned)
      else
        return (echo.map .echo ++ calls.map .printed ++ [.printed promptCall], .waiting ⟨buf, 0⟩)

/-! ## Words -/

/-- The words of a line. -/
def words (s : List UInt8) : List (List UInt8) := (s.splitOnP isWhite).filter (· ≠ [])

/-- The zero at the end of the table is not one of the characters between words. -/
theorem isWhite_eq (c : UInt8) : isWhite c = decide (c ∈ whitespace) := by
  by_cases hc : c ∈ whitespace
  · rw [decide_eq_true hc]
    simp only [whitespace, List.mem_cons, List.not_mem_nil, or_false] at hc
    obtain rfl | rfl | rfl | rfl := hc <;> rfl
  · have hseek : seek (fun b => b = 0 || b = c) (fun a => whitespace.getD a 0) 5 0 = some 4 := by
      have hall : ∀ b ∈ whitespace, (!(b = 0 || b = c)) = true := by
        intro b hb
        have hne : b ≠ c := fun h => hc (h ▸ hb)
        have hzero : b ≠ 0 := fun h => absurd (h ▸ hb) (by decide)
        simp [hne, hzero]
      rw [seek_eq (HoldsString.const (by decide)) rfl (by decide),
        List.takeWhile_eq_self_iff.2 hall]
      rfl
    rw [decide_eq_false hc, isWhite, strchr, hseek]
    rfl

section Words

variable {c : UInt8} {s w rest : List UInt8}

theorem words_nil : words [] = [] := rfl

theorem words_white (hc : isWhite c = true) : words (c :: s) = words s := by
  rw [words, List.splitOnP_cons_eq_if_modifyHead, if_pos hc]
  rfl

theorem words_dropWhile (s : List UInt8) : words (s.dropWhile isWhite) = words s := by
  induction s with
  | nil => rfl
  | cons c s ih =>
    rw [List.dropWhile_cons]
    split
    · rename_i hc
      rw [ih, words_white hc]
    · rfl

theorem words_word (hw : w ≠ []) (hplain : ∀ c ∈ w, isWhite c = false)
    (hrest : rest.takeWhile (!isWhite ·) = []) : words (w ++ rest) = w :: words rest := by
  have hsingle := List.splitOnP_eq_singleton hplain
  cases rest with
  | nil => simp [words, hsingle, hw]
  | cons c rest =>
    have hc : isWhite c = true := by
      simpa [List.takeWhile_cons] using hrest
    rw [words_white hc, words, List.splitOnP_append_cons _ _ hc, hsingle]
    simp [words, hw]

end Words

example : words (ofString " help  me\t") = [ofString "help", ofString "me"] := by decide

/-! ## Cutting the buffer -/

section Cutting

variable {buf : Memory UInt8} {p fuel : ℕ} {s : List UInt8}

/-- The whitespace becomes zeros, and nothing else changes. -/
theorem gobble_spec (h : HoldsString buf p s) (hfuel : s.length < fuel) :
    ∃ buf', gobble fuel buf p = some (buf', p + (s.takeWhile isWhite).length) ∧
      (∀ a, a < p ∨ p + (s.takeWhile isWhite).length ≤ a → buf' a = buf a) ∧
      ∀ a, p ≤ a → a < p + (s.takeWhile isWhite).length → buf' a = 0 := by
  induction s generalizing buf p fuel with
  | nil =>
    obtain ⟨fuel, rfl⟩ : ∃ k, fuel = k + 1 := Nat.exists_eq_succ_of_ne_zero (by omega)
    refine ⟨buf, if_neg fun hmore => hmore.1 (HoldsString.nil_iff.1 h), fun a _ => rfl, ?_⟩
    intro a hle hlt
    exact absurd hlt (Nat.not_lt.2 hle)
  | cons c s ih =>
    obtain ⟨fuel, rfl⟩ : ∃ k, fuel = k + 1 := Nat.exists_eq_succ_of_ne_zero (by omega)
    obtain ⟨hhead, hc, hrest⟩ := HoldsString.cons_iff.1 h
    rw [gobble, hhead, List.takeWhile_cons]
    cases hwhite : isWhite c with
    | false =>
      refine ⟨buf, if_neg fun hmore => Bool.false_ne_true hmore.2, fun a _ => rfl, ?_⟩
      intro a hle hlt
      exact absurd hlt (Nat.not_lt.2 hle)
    | true =>
      have hkept : HoldsString (Function.update buf p 0) (p + 1) s :=
        hrest.congr fun a hle _ => Function.update_of_ne (by omega) _ _
      obtain ⟨buf', hgobble, hsame, hzero⟩ := ih hkept (by simpa using hfuel)
      rw [if_pos ⟨hc, rfl⟩, hgobble, if_pos rfl, List.length_cons]
      refine ⟨buf', by rw [Nat.add_assoc, Nat.add_comm 1], fun a ha => ?_, fun a hle hlt => ?_⟩
      · rw [hsame a (by omega)]
        exact Function.update_of_ne (by omega) _ _
      · by_cases hap : a = p
        · subst hap
          rw [hsame a (by omega)]
          exact Function.update_self ..
        · exact hzero a (by omega) (by omega)

theorem holdsString_gobbled {buf' : Memory UInt8} (h : HoldsString buf p s)
    (hsame : ∀ a, p + (s.takeWhile isWhite).length ≤ a → buf' a = buf a) :
    HoldsString buf' (p + (s.takeWhile isWhite).length) (s.dropWhile isWhite) := by
  have hsplit := h
  rw [← List.takeWhile_append_dropWhile (p := isWhite) (l := s)] at hsplit
  exact hsplit.append.congr fun a hle _ => hsame a hle

/-- The first word of a line, and what is left of the line after it. -/
def firstWord (s : List UInt8) : List UInt8 :=
  (s.dropWhile isWhite).takeWhile (!isWhite ·)

def afterWord (s : List UInt8) : List UInt8 :=
  (s.dropWhile isWhite).dropWhile (!isWhite ·)

theorem firstWord_append (s : List UInt8) : firstWord s ++ afterWord s = s.dropWhile isWhite :=
  List.takeWhile_append_dropWhile

theorem takeWhile_afterWord (s : List UInt8) : (afterWord s).takeWhile (!isWhite ·) = [] := by
  unfold afterWord
  induction s.dropWhile isWhite with
  | nil => rfl
  | cons c t ih =>
    rw [List.dropWhile_cons]
    split
    · exact ih
    · rename_i hc
      exact List.takeWhile_cons_of_neg hc

theorem words_eq (hword : firstWord s ≠ []) :
    words s = firstWord s :: words (afterWord s) := by
  rw [← words_dropWhile, ← firstWord_append]
  apply words_word hword
  · intro c hc
    simpa using List.mem_takeWhile_imp hc
  · exact takeWhile_afterWord s

theorem dropWhile_eq_nil (hword : firstWord s = []) : s.dropWhile isWhite = [] := by
  unfold firstWord at hword
  induction s with
  | nil => rfl
  | cons c s ih =>
    cases hc : isWhite c with
    | true =>
      rw [List.dropWhile_cons_of_pos hc] at hword ⊢
      exact ih hword
    | false =>
      rw [List.dropWhile_cons_of_neg (by simp [hc]), List.takeWhile_cons_of_pos (by simp [hc])]
        at hword
      exact absurd hword (List.cons_ne_nil _ _)

theorem words_eq_nil (hword : firstWord s = []) : words s = [] := by
  rw [← words_dropWhile, dropWhile_eq_nil hword, words_nil]

/-- Without whitespace in front, the line begins with its first word. -/
theorem firstWord_eq (hfront : s.takeWhile isWhite = []) :
    firstWord s = s.takeWhile (!isWhite ·) := by
  have hsplit := List.takeWhile_append_dropWhile (p := isWhite) (l := s)
  rw [hfront, List.nil_append] at hsplit
  rw [firstWord, hsplit]

theorem length_afterWord (hword : firstWord s ≠ []) : (afterWord s).length < s.length := by
  have hsplit := congrArg List.length (firstWord_append s)
  have hle : (s.dropWhile isWhite).length ≤ s.length := List.length_dropWhile_le isWhite s
  have hpos := List.length_pos_iff.2 hword
  rw [List.length_append] at hsplit
  omega

theorem takeWhile_noNul {t : List UInt8} (ht : 0 ∉ t) :
    t.takeWhile (fun c => !(c = 0 || isWhite c)) = t.takeWhile (!isWhite ·) := by
  induction t with
  | nil => rfl
  | cons c t ih =>
    rw [List.mem_cons, not_or] at ht
    simp only [List.takeWhile_cons, Ne.symm ht.1, decide_false, Bool.false_or, ih ht.2]

/-- Where the loop stands after the whitespace, and after the word that follows. -/
theorem cut_word (h : HoldsString buf p s) (hfuel : s.length < fuel) (hword : firstWord s ≠ []) :
    ∃ buf1 p1, gobble fuel buf p = some (buf1, p1) ∧ buf1 p1 ≠ 0 ∧
      seek (fun c => c = 0 || isWhite c) buf1 fuel p1 = some (p1 + (firstWord s).length) ∧
      HoldsString buf1 p1 (firstWord s ++ afterWord s) ∧ p ≤ p1 ∧
      (∀ a < p, buf1 a = buf a) ∧ (s.takeWhile (!isWhite ·) = [] → p < p1 ∧ buf1 p = 0) := by
  obtain ⟨buf1, hgobble, hsame, hzero⟩ := gobble_spec h hfuel
  have hleft := holdsString_gobbled h fun a ha => hsame a (.inr ha)
  refine ⟨buf1, _, hgobble, ?_, ?_, ?_, Nat.le_add_right .., fun a ha => hsame a (.inl ha),
    fun hfront => ?_⟩
  · obtain ⟨c, w, hcw⟩ := List.exists_cons_of_ne_nil hword
    rw [← firstWord_append, hcw] at hleft
    obtain ⟨hhead, hc, -⟩ := HoldsString.cons_iff.1 hleft
    rwa [hhead]
  · have hle : (s.dropWhile isWhite).length ≤ s.length := List.length_dropWhile_le isWhite s
    rw [seek_eq hleft rfl (by omega), takeWhile_noNul hleft.noNul]
    rfl
  · rwa [firstWord_append]
  · have hpos : 0 < (s.takeWhile isWhite).length := by
      rw [List.length_pos_iff]
      intro hnone
      exact hword ((firstWord_eq hnone).trans hfront)
    exact ⟨by omega, hzero p le_rfl (by omega)⟩

/-- The line has no more words. -/
theorem cut_end (h : HoldsString buf p s) (hfuel : s.length < fuel) (hword : firstWord s = []) :
    ∃ buf1 p1, gobble fuel buf p = some (buf1, p1) ∧ buf1 p1 = 0 ∧ buf1 p = 0 ∧
      ∀ a < p, buf1 a = buf a := by
  obtain ⟨buf1, hgobble, hsame, hzero⟩ := gobble_spec h hfuel
  have hleft := holdsString_gobbled h fun a ha => hsame a (.inr ha)
  rw [dropWhile_eq_nil hword] at hleft
  have hend := HoldsString.nil_iff.1 hleft
  refine ⟨buf1, _, hgobble, hend, ?_, fun a ha => hsame a (.inl ha)⟩
  by_cases hnone : (s.takeWhile isWhite).length = 0
  · rwa [hnone] at hend
  · exact hzero p le_rfl (by omega)

/-- The buffer is cut at the whitespace: `argv` points to the words. -/
theorem cut_spec (h : HoldsString buf p s) (hfuel : s.length < fuel) (argv : List ℕ)
    (hargv : argv.length + (words s).length < maxargs) :
    ∃ buf' ptrs, cut fuel buf p argv = some (buf', some (argv ++ ptrs)) ∧
      List.Forall₂ (HoldsString buf') ptrs (words s) ∧ (∀ a < p, buf' a = buf a) ∧
      (s.takeWhile (!isWhite ·) = [] → buf' p = 0) := by
  induction fuel generalizing buf p s argv with
  | zero => exact absurd hfuel (Nat.not_lt_zero _)
  | succ fuel ih =>
    rw [cut]
    by_cases hword : firstWord s = []
    · obtain ⟨buf1, p1, hgobble, hend, hp, hsame⟩ := cut_end h hfuel hword
      rw [hgobble, words_eq_nil hword]
      refine ⟨buf1, [], ?_, .nil, hsame, fun _ => hp⟩
      rw [List.append_nil]
      exact if_pos hend
    · obtain ⟨buf1, p1, hgobble, hne, hseek, hboth, hle, hsame, hfront⟩ := cut_word h hfuel hword
      rw [words_eq hword, List.length_cons] at hargv
      have hshort := length_afterWord hword
      obtain ⟨buf', ptrs, hcut, hptrs, hkept, hends⟩ :=
        ih hboth.append (by omega) (argv ++ [p1])
          (by rw [List.length_append, List.length_singleton]; omega)
      have hlast := hends (takeWhile_afterWord s)
      have hroom : argv.length ≠ maxargs - 1 := by omega
      refine ⟨buf', p1 :: ptrs, ?_, ?_, fun a ha => ?_, fun hnone => ?_⟩
      · rw [hgobble]
        simp only [Option.bind_eq_bind, Option.bind_some, if_neg hne, if_neg hroom, hseek, hcut]
        rw [List.append_assoc]
        rfl
      · rw [words_eq hword]
        refine .cons ⟨fun i hi => ?_, fun hnul => ?_, hlast⟩ hptrs
        · rw [hkept _ (by omega), hboth.cell i (by rw [List.length_append]; omega),
            List.getElem_append_left hi]
        · exact hboth.noNul (List.mem_append_left _ hnul)
      · rw [hkept a (by omega), hsame a ha]
      · obtain ⟨hlt, hzero⟩ := hfront hnone
        rw [hkept p (by omega), hzero]

/-- The loop stops when there is no room for another word. -/
theorem cut_many (h : HoldsString buf p s) (hfuel : s.length < fuel) (argv : List ℕ)
    (hargv : argv.length < maxargs) (hmany : maxargs ≤ argv.length + (words s).length) :
    ∃ buf', cut fuel buf p argv = some (buf', none) := by
  induction fuel generalizing buf p s argv with
  | zero => exact absurd hfuel (Nat.not_lt_zero _)
  | succ fuel ih =>
    rw [cut]
    have hword : firstWord s ≠ [] := by
      intro hnone
      rw [words_eq_nil hnone] at hmany
      exact absurd hmany (Nat.not_le.2 hargv)
    obtain ⟨buf1, p1, hgobble, hne, hseek, hboth, -⟩ := cut_word h hfuel hword
    have hshort := length_afterWord hword
    rw [words_eq hword, List.length_cons] at hmany
    rw [hgobble]
    simp only [Option.bind_eq_bind, Option.bind_some, if_neg hne]
    by_cases hroom : argv.length = maxargs - 1
    · rw [if_pos hroom]
      exact ⟨buf1, rfl⟩
    · obtain ⟨buf', hcut⟩ := ih hboth.append (by omega) (argv ++ [p1])
        (by rw [List.length_append, List.length_singleton]; omega)
        (by rw [List.length_append, List.length_singleton]; omega)
      rw [if_neg hroom, hseek]
      exact ⟨buf', hcut⟩

end Cutting

/-! ## Running a command -/

/-- What the monitor prints for the words of a line. -/
def reply (sym : Symbols) (ws : List (List UInt8)) : List Printed :=
  if maxargs ≤ ws.length then [⟨"Too many arguments (max %d)\n", [.int maxargs]⟩]
  else
    match ws with
    | [] => []
    | w :: _ =>
      match commands.find? fun c => ofString c.name = w with
      | some c => (c.func.run sym).1
      | none => [⟨"Unknown command '%s'\n", [.str w]⟩]

theorem Func.run_zero (sym : Symbols) (f : Func) : (f.run sym).2 = 0 := by
  cases f <;> rfl

theorem names_noNul : ∀ c ∈ commands, 0 ∉ ofString c.name := by decide

section Commands

variable {buf : Memory UInt8} {s : List UInt8}

theorem lookup_eq {argv0 : ℕ} (h : HoldsString buf argv0 s) (hlength : s.length < buflen)
    (cs : List Command) (hcs : ∀ c ∈ cs, 0 ∉ ofString c.name) :
    lookup buf argv0 cs =
      some ((cs.find? fun c => ofString c.name = s).map Command.func) := by
  induction cs with
  | nil => rfl
  | cons c cs ih =>
    obtain ⟨v, hv, hzero, -⟩ :=
      strcmp_eq h (HoldsString.const (hcs c List.mem_cons_self)) hlength
    rw [lookup, hv, ih fun d hd => hcs d (List.mem_cons_of_mem c hd), List.find?_cons]
    by_cases hname : s = ofString c.name
    · simp [hzero.2 hname, hname]
    · have hne : ¬ v = 0 := fun hv0 => hname (hzero.1 hv0)
      have hne' : ¬ ofString c.name = s := fun heq => hname heq.symm
      simp [hne, hne']

theorem length_word {w : List UInt8} (hw : w ∈ words s) : w.length ≤ s.length := by
  induction hlength : s.length using Nat.strong_induction_on generalizing s with
  | h n ih =>
    by_cases hword : firstWord s = []
    · rw [words_eq_nil hword] at hw
      exact absurd hw List.not_mem_nil
    · have hshort := length_afterWord hword
      have hsplit := congrArg List.length (firstWord_append s)
      have hle : (s.dropWhile isWhite).length ≤ s.length := List.length_dropWhile_le isWhite s
      rw [words_eq hword, List.mem_cons] at hw
      obtain rfl | hw := hw
      · rw [List.length_append] at hsplit
        omega
      · have hrest := ih _ (by omega) hw rfl
        omega

theorem runcmd_eq (sym : Symbols) (h : HoldsString buf 0 s) (hlength : s.length < buflen) :
    ∃ buf', runcmd sym buf = some (buf', reply sym (words s), 0) := by
  unfold runcmd reply
  by_cases hmany : maxargs ≤ (words s).length
  · obtain ⟨buf', hcut⟩ := cut_many h hlength [] (by decide) (by simpa using hmany)
    rw [hcut, if_pos hmany]
    exact ⟨buf', rfl⟩
  · obtain ⟨buf', ptrs, hcut, hptrs, -⟩ := cut_spec h hlength [] (by simpa using hmany)
    rw [hcut, if_neg hmany]
    simp only [Option.bind_eq_bind, Option.bind_some, List.nil_append]
    have hshort : ∀ w ∈ words s, w.length < buflen :=
      fun w hw => (length_word hw).trans_lt hlength
    generalize words s = ws at hptrs hshort
    cases hptrs with
    | nil => exact ⟨buf', rfl⟩
    | cons hword hrest =>
      rename_i ptr w ptrs ws
      have hw := hshort w List.mem_cons_self
      simp only [lookup_eq hword hw commands names_noNul, Option.bind_some]
      cases hfind : commands.find? fun c => ofString c.name = w with
      | some c =>
        refine ⟨buf', ?_⟩
        simp [Func.run_zero]
      | none =>
        refine ⟨buf', ?_⟩
        simp [readString_eq hword hw]

end Commands

/-! ## Typing -/

def isEnter (c : UInt8) : Bool := c = 10 || c = 13

/-- What a key other than Enter makes of the line. In an empty line the delete key is a
character. -/
def edit (content : List UInt8) (c : UInt8) : List UInt8 :=
  if (c = 8 ∨ c = 0x7F) ∧ content ≠ [] then content.dropLast
  else if c ≥ 32 ∧ content.length < buflen - 1 then content ++ [c]
  else content

/-- What the key shows. -/
def echoOf (content : List UInt8) (c : UInt8) : List UInt8 :=
  if (c = 8 ∨ c = 0x7F) ∧ content ≠ [] then [8]
  else if c ≥ 32 ∧ content.length < buflen - 1 then [c]
  else []

/-- The buffer holds the line. -/
structure Typed (l : Line) (content : List UInt8) : Prop where
  i : l.i = content.length
  cell : ∀ (j : ℕ) (hj : j < content.length), l.buf j = content[j]
  ge : ∀ c ∈ content, c ≥ 32
  length : content.length < buflen

section Typing

variable {l : Line} {content : List UInt8} {c : UInt8}

theorem typed_nil (buf : Memory UInt8) : Typed ⟨buf, 0⟩ [] :=
  ⟨rfl, fun j hj => absurd hj (Nat.not_lt_zero j), by simp, by decide⟩

/-- Enter ends the string in the buffer. -/
theorem Typed.enter (h : Typed l content) (hc : isEnter c = true) :
    ∃ buf, readlineTurn l c = ([10], .done buf) ∧ HoldsString buf 0 content := by
  have hten : c = 10 ∨ c = 13 := by simpa [isEnter] using hc
  have hnoback : ¬ ((c = 8 ∨ c = 0x7F) ∧ l.i > 0) := by
    obtain rfl | rfl := hten <;> simp
  have hnochar : ¬ (c ≥ 32 ∧ l.i < buflen - 1) := by
    obtain rfl | rfl := hten <;> exact fun hand => absurd hand.1 (by decide)
  refine ⟨Function.update l.buf l.i 0, ?_, fun j hj => ?_, fun hnul => ?_, ?_⟩
  · rw [readlineTurn, if_neg hnoback, if_neg hnochar, if_pos hten]
  · rw [Nat.zero_add, Function.update_of_ne (by rw [h.i]; omega)]
    exact h.cell j hj
  · exact absurd (h.ge 0 hnul) (by decide)
  · rw [Nat.zero_add, ← h.i]
    exact Function.update_self ..

theorem Typed.dropLast (h : Typed l content) :
    Typed { l with i := l.i - 1 } content.dropLast where
  i := by rw [List.length_dropLast, h.i]
  cell j hj := by
    rw [List.getElem_dropLast]
    exact h.cell j _
  ge d hd := h.ge d (List.mem_of_mem_dropLast hd)
  length := by
    rw [List.length_dropLast]
    exact (Nat.sub_le _ _).trans_lt h.length

theorem Typed.concat (h : Typed l content) (hc : c ≥ 32) (hroom : content.length < buflen - 1) :
    Typed ⟨Function.update l.buf l.i c, l.i + 1⟩ (content ++ [c]) where
  i := by
    rw [List.length_append, h.i]
    rfl
  cell j hj := by
    rw [List.length_append, List.length_singleton] at hj
    dsimp only
    by_cases hlast : j = content.length
    · have hself : Function.update l.buf l.i c j = c := by
        rw [hlast, ← h.i, Function.update_self]
      rw [hself]
      simp [hlast]
    · rw [Function.update_of_ne (by rwa [h.i]), h.cell j (by omega), List.getElem_append_left]
  ge d hd := by
    obtain hd | hd := List.mem_append.1 hd
    · exact h.ge d hd
    · rw [List.mem_singleton.1 hd]
      exact hc
  length := by
    rw [List.length_append, List.length_singleton]
    omega

/-- Another key edits the line. -/
theorem Typed.edit (h : Typed l content) (hc : isEnter c = false) :
    ∃ l', readlineTurn l c = (echoOf content c, .again l') ∧ Typed l' (edit content c) := by
  have hten : ¬ (c = 10 ∨ c = 13) := by simpa [isEnter] using hc
  have hsome : l.i > 0 ↔ content ≠ [] := by rw [h.i, ← List.length_pos_iff]
  have hroom : l.i < buflen - 1 ↔ content.length < buflen - 1 := by rw [h.i]
  unfold readlineTurn Monitor.edit echoOf
  simp only [hsome, hroom]
  by_cases hback : (c = 8 ∨ c = 0x7F) ∧ content ≠ []
  · rw [if_pos hback, if_pos hback, if_pos hback]
    exact ⟨_, rfl, h.dropLast⟩
  · rw [if_neg hback, if_neg hback, if_neg hback]
    by_cases hchar : c ≥ 32 ∧ content.length < buflen - 1
    · rw [if_pos hchar, if_pos hchar, if_pos hchar]
      exact ⟨_, rfl, h.concat hchar.1 hchar.2⟩
    · rw [if_neg hchar, if_neg hchar, if_neg hchar, if_neg hten]
      exact ⟨l, rfl, h⟩

end Typing

/-! ## Runs -/

/-- What the program does with keys. -/
@[grind]
def run (sym : Symbols) (s : State) : List UInt8 → Option (List Item × State)
  | [] => some ([], s)
  | c :: cs => do
    let (items, s) ← step sym s c
    let (rest, s) ← run sym s cs
    return (items ++ rest, s)

def welcome : List Printed :=
  [⟨"Welcome to the JOS kernel monitor!\n", []⟩,
    ⟨"Type 'help' for a list of commands.\n", []⟩, promptCall]

/-- `monitor`, with the keys that are typed and what `buf` holds before. -/
def monitor (sym : Symbols) (buf : Memory UInt8) (keys : List UInt8) :
    Option (List Item × State) := do
  let (items, s) ← run sym (.waiting ⟨buf, 0⟩) keys
  return (welcome.map .printed ++ items, s)

/-- The monitor as a machine that has nothing but the line. -/
def specStep (sym : Symbols) (content : List UInt8) (c : UInt8) : List Item × List UInt8 :=
  if isEnter c then
    (.echo 10 :: (reply sym (words content)).map .printed ++ [.printed promptCall], [])
  else ((echoOf content c).map .echo, edit content c)

theorem step_refines (sym : Symbols) {l : Line} {content : List UInt8} (h : Typed l content)
    (c : UInt8) :
    ∃ l', step sym (.waiting l) c = some ((specStep sym content c).1, .waiting l') ∧
      Typed l' (specStep sym content c).2 := by
  unfold step specStep
  cases hc : isEnter c with
  | true =>
    obtain ⟨buf, hturn, hstring⟩ := h.enter hc
    obtain ⟨buf', hrun⟩ := runcmd_eq sym hstring h.length
    refine ⟨⟨buf', 0⟩, ?_, typed_nil buf'⟩
    simp [hturn, hrun]
  | false =>
    obtain ⟨l', hturn, htyped⟩ := h.edit hc
    refine ⟨l', ?_, htyped⟩
    simp [hturn]

theorem run_refines (sym : Symbols) {l : Line} {content : List UInt8} (h : Typed l content)
    (keys : List UInt8) :
    ∃ l', run sym (.waiting l) keys =
        some ((session (specStep sym) content keys).1.flatten, .waiting l') ∧
      Typed l' (session (specStep sym) content keys).2 := by
  induction keys generalizing l content with
  | nil => exact ⟨l, rfl, h⟩
  | cons c keys ih =>
    obtain ⟨l', hstep, htyped⟩ := step_refines sym h c
    obtain ⟨l'', hrun, hlater⟩ := ih htyped
    refine ⟨l'', ?_, hlater⟩
    rw [run, hstep]
    simp only [Option.bind_eq_bind, Option.bind_some, hrun, session]
    rfl

/-- What the monitor prints after a line. -/
def answer (sym : Symbols) (content : List UInt8) : List Printed :=
  reply sym (words content) ++ [promptCall]

def printed (items : List Item) : List Printed :=
  items.filterMap fun item => match item with
    | .printed call => some call
    | .echo _ => none

def echoed (items : List Item) : List UInt8 :=
  items.filterMap fun item => match item with
    | .echo c => some c
    | .printed _ => none

theorem printed_append (items later : List Item) :
    printed (items ++ later) = printed items ++ printed later :=
  List.filterMap_append

theorem printed_calls (calls : List Printed) : printed (calls.map .printed) = calls := by
  induction calls with
  | nil => rfl
  | cons call calls ih => exact congrArg (call :: ·) ih

theorem printed_echo (cs : List UInt8) : printed (cs.map .echo) = [] := by
  induction cs with
  | nil => rfl
  | cons c cs ih => exact ih

theorem echoed_append (items later : List Item) :
    echoed (items ++ later) = echoed items ++ echoed later :=
  List.filterMap_append

theorem echoed_echo (cs : List UInt8) : echoed (cs.map .echo) = cs := by
  induction cs with
  | nil => rfl
  | cons c cs ih => exact congrArg (c :: ·) ih

/-- The answers to lines, of which the first one has been begun. -/
def answersFrom (sym : Symbols) (content : List UInt8) : List (List UInt8) → List Printed
  | [] => []
  | typed :: rest =>
    answer sym (typed.foldl edit content) ++
      rest.flatMap fun typed => answer sym (typed.foldl edit [])

theorem answersFrom_nil (sym : Symbols) (lines : List (List UInt8)) :
    answersFrom sym [] lines = lines.flatMap fun typed => answer sym (typed.foldl edit []) := by
  cases lines <;> rfl

theorem printed_session (sym : Symbols) (content keys : List UInt8) :
    printed (session (specStep sym) content keys).1.flatten =
      answersFrom sym content (keys.splitOnP isEnter).dropLast := by
  induction keys generalizing content with
  | nil => rfl
  | cons c keys ih =>
    obtain ⟨first, more, hsplit⟩ :=
      List.exists_cons_of_ne_nil (List.splitOnP_ne_nil isEnter keys)
    rw [session, List.flatten_cons, printed_append, ih, List.splitOnP_cons_eq_if_modifyHead, hsplit]
    cases hc : isEnter c with
    | true =>
      have hstep : specStep sym content c =
          (.echo 10 :: (reply sym (words content)).map .printed ++ [.printed promptCall], []) :=
        if_pos hc
      have hcalls : printed (.echo 10 :: (reply sym (words content)).map .printed ++
          [.printed promptCall]) = answer sym content := by
        rw [printed_append, answer]
        exact congrArg (· ++ [promptCall]) (printed_calls (reply sym (words content)))
      rw [hstep, hcalls, if_pos rfl, answersFrom_nil, List.dropLast_cons_of_ne_nil
        (List.cons_ne_nil _ _)]
      rfl
    | false =>
      have hstep : specStep sym content c = ((echoOf content c).map .echo, edit content c) :=
        if_neg (by rw [hc]; exact Bool.false_ne_true)
      rw [hstep, printed_echo, if_neg Bool.false_ne_true, List.nil_append, List.modifyHead_cons]
      cases more with
      | nil => rfl
      | cons next more => rfl

/-- Whatever is typed, the monitor runs exactly the lines that were ended, each as it was edited
and cut into its words, and goes on to wait for the next key. -/
theorem commands_run (sym : Symbols) (buf : Memory UInt8) (keys : List UInt8) :
    ∃ items l, monitor sym buf keys = some (items, .waiting l) ∧
      printed items = welcome ++ ((keys.splitOnP isEnter).dropLast).flatMap fun typed =>
        answer sym (typed.foldl edit []) := by
  obtain ⟨l, hrun, -⟩ := run_refines sym (typed_nil buf) keys
  refine ⟨welcome.map .printed ++ (session (specStep sym) [] keys).1.flatten, l, ?_, ?_⟩
  · rw [monitor, hrun]
    rfl
  · rw [printed_append, printed_calls, printed_session, answersFrom_nil]

/-! ## What is on the screen -/

/-- A byte as the `int` that `cputchar` takes. -/
def toInt (c : UInt8) : BitVec 32 := BitVec.ofNat 32 c.toNat

/-- From the cursor `start` on the page holds the line, and before it what it held at first. -/
structure Echoed (first : Page) (content : List UInt8) (p : Page) : Prop where
  pos : p.pos = first.pos + content.length
  top : p.top * crtCols ≤ first.pos
  below : p.pos / crtCols + 1 - crtRows ≤ p.top
  cell : ∀ (j : ℕ) (hj : j < content.length), p.cells (first.pos + j) = cellOf (toInt content[j])
  before : ∀ i < first.pos, p.cells i = first.cells i

theorem plain_ofNat :
    ∀ n < 256, 32 ≤ n → low (withAttribute (BitVec.ofNat 32 n)) ∉ [8, 9, 10, 13] := by
  decide +kernel

theorem plain_toInt (c : UInt8) (hc : c ≥ 32) : Plain (toInt c) :=
  plain_ofNat c.toNat c.toNat_lt hc

section Echo

variable {first p : Page} {content : List UInt8} {c : UInt8}

theorem Echoed.char (h : Echoed first content p) (hc : c ≥ 32)
    (hroom : content.length < buflen - 1) :
    Echoed first (content ++ [c]) (p.print (toInt c)) := by
  obtain ⟨hpos, htop, hbelow, hcell, hbefore⟩ := h
  have hlength : (content ++ [c]).length = content.length + 1 := List.length_append
  rw [(plain_toInt c hc).print_eq]
  constructor <;> simp only [Page.follow, buflen] at *
  · omega
  · simp only [crtCols_eq, crtRows_eq] at *
    omega
  · exact le_max_right ..
  · intro j hj
    by_cases hlast : j = content.length
    · subst hlast
      rw [← hpos, Function.update_self]
      simp
    · rw [Function.update_of_ne (by omega), hcell j (by omega), List.getElem_append_left]
  · intro i hi
    rw [Function.update_of_ne (by omega), hbefore i hi]

theorem Echoed.erase (h : Echoed first content p) (hcontent : content ≠ []) :
    Echoed first content.dropLast (p.print (toInt 8)) := by
  obtain ⟨hpos, htop, hbelow, hcell, hbefore⟩ := h
  have hlength : 0 < content.length := List.length_pos_iff.2 hcontent
  have hroom : p.pos > p.top * crtCols := by omega
  have hprint : p.print (toInt 8) =
      Page.follow { p.put (p.pos - 1) 0x0720 with pos := p.pos - 1 } := by
    unfold Page.print
    exact congrArg Page.follow (if_pos hroom)
  have hback : (p.pos - 1) / crtCols ≤ p.pos / crtCols := Nat.div_le_div_right (Nat.sub_le _ _)
  rw [hprint]
  constructor <;> simp only [Page.follow, Page.put, List.length_dropLast]
  · omega
  · rwa [max_eq_left (by omega)]
  · exact le_max_right ..
  · intro j hj
    rw [Function.update_of_ne (by omega), List.getElem_dropLast, hcell j (by omega)]
  · intro i hi
    rw [Function.update_of_ne (by omega), hbefore i hi]

/-- A key other than Enter keeps the line on the page in step with the buffer. -/
theorem Echoed.edit (h : Echoed first content p) (c : UInt8) :
    Echoed first (edit content c) (((echoOf content c).map toInt).foldl Page.print p) := by
  unfold Monitor.edit echoOf
  by_cases hback : (c = 8 ∨ c = 0x7F) ∧ content ≠ []
  · rw [if_pos hback, if_pos hback]
    exact h.erase hback.2
  · rw [if_neg hback, if_neg hback]
    by_cases hchar : c ≥ 32 ∧ content.length < buflen - 1
    · rw [if_pos hchar, if_pos hchar]
      exact h.char hchar.1 hchar.2
    · rw [if_neg hchar, if_neg hchar]
      exact h

theorem shown_echoOf (content : List UInt8) (c : UInt8) :
    ((echoOf content c).map toInt).flatMap shown = (echoOf content c).map toInt := by
  unfold echoOf
  split
  · rfl
  · split
    · rename_i hchar
      simp [(plain_toInt c hchar.1).shown_eq]
    · rfl

end Echo

/-- What keys other than Enter make of the line, and what they show. -/
theorem session_edit (sym : Symbols) (content keys : List UInt8)
    (hkeys : ∀ c ∈ keys, isEnter c = false) {first p : Page} (h : Echoed first content p) :
    let after := session (specStep sym) content keys
    let cs := (echoed after.1.flatten).map toInt
    after.2 = keys.foldl edit content ∧ cs.flatMap shown = cs ∧
      Echoed first (keys.foldl edit content) (cs.foldl Page.print p) := by
  induction keys generalizing content p with
  | nil => exact ⟨rfl, rfl, h⟩
  | cons c keys ih =>
    have hstep : specStep sym content c = ((echoOf content c).map .echo, edit content c) :=
      if_neg (by rw [hkeys c List.mem_cons_self]; exact Bool.false_ne_true)
    obtain ⟨hline, hshown, hechoed⟩ :=
      ih (edit content c) (fun d hd => hkeys d (List.mem_cons_of_mem c hd)) (h.edit c)
    simp only [session, hstep, List.flatten_cons, echoed_append, echoed_echo, List.map_append,
      List.flatMap_append, List.foldl_append, List.foldl_cons]
    exact ⟨hline, by rw [shown_echoOf, hshown], hechoed⟩

theorem echoed_page (s : Screen) (hs : s.crtPos < crtSize) : Echoed s.page [] s.page := by
  refine ⟨rfl, Nat.zero_mul _ ▸ Nat.zero_le _, ?_, fun j hj => absurd hj (Nat.not_lt_zero j),
    fun i _ => rfl⟩
  simp only [Screen.page, crtCols_eq, crtRows_eq, crtSize_eq] at hs ⊢
  omega

/-- What is on the screen between the prompt and the cursor is what Enter will run, with as many
lines scrolled away as are necessary, and in front of it is what was there before. -/
theorem screen_shows_line (sym : Symbols) (buf : Memory UInt8) (s : Screen)
    (hs : s.crtPos < crtSize) (keys : List UInt8) (hkeys : ∀ c ∈ keys, isEnter c = false) :
    ∃ items l o up, run sym (.waiting ⟨buf, 0⟩) keys = some (items, .waiting l) ∧
      Typed l (keys.foldl edit []) ∧
      ((echoed items).map toInt).foldlM consPutc ⟨[], [], s⟩ = some o ∧
      up * crtCols ≤ s.crtPos ∧
      o.screen.crtPos + up * crtCols = s.crtPos + (keys.foldl edit []).length ∧
      (∀ (j : ℕ) (hj : j < (keys.foldl edit []).length),
        o.screen.crtBuf (s.crtPos + j - up * crtCols) =
          cellOf (toInt (keys.foldl edit [])[j])) ∧
      ∀ i < s.crtPos, up * crtCols ≤ i → o.screen.crtBuf (i - up * crtCols) = s.crtBuf i := by
  obtain ⟨l, hrun, htyped⟩ := run_refines sym (typed_nil buf) keys
  obtain ⟨hline, hshown, hechoed⟩ := session_edit sym [] keys hkeys (echoed_page s hs)
  have hstart : Prints ⟨[], [], s⟩ s.page [] := ⟨s.shows_page hs, rfl, rfl⟩
  obtain ⟨o, hputs, hscreen, -⟩ :=
    hstart.run ((echoed (session (specStep sym) [] keys).1.flatten).map toInt)
  rw [hshown] at hscreen
  rw [hline] at htyped
  generalize keys.foldl edit [] = content at htyped hechoed ⊢
  have hcursor := hscreen.pos
  have hin := hscreen.crtPos_lt
  have htop := hechoed.top
  have hend := hechoed.pos
  have hstart_eq : s.page.pos = s.crtPos := rfl
  rw [hstart_eq] at htop hend
  refine ⟨_, l, o, _, hrun, htyped, hputs, htop, by omega, fun j hj => ?_, fun i hi hup => ?_⟩
  · rw [hscreen.cell _ (by omega), Nat.add_sub_cancel' (by omega), ← hstart_eq]
    exact hechoed.cell j hj
  · rw [hscreen.cell _ (by omega), Nat.add_sub_cancel' hup, hechoed.before i hi]
    exact if_pos (hi.trans hs)

theorem noEnter_lsx : ∀ c ∈ [108, 115, 120, 8], isEnter c = false := by decide +kernel

theorem screen_shows_line_lsx :
    ∃ items l o up, run ⟨0, 0, 0, 0, 0⟩ (.waiting ⟨fun _ => 0, 0⟩) [108, 115, 120, 8] =
        some (items, .waiting l) ∧
      Typed l ([108, 115, 120, 8].foldl edit []) ∧
      ((echoed items).map toInt).foldlM consPutc ⟨[], [], ⟨fun _ => blank, 3⟩⟩ = some o ∧
      up * crtCols ≤ 3 ∧
      o.screen.crtPos + up * crtCols = 3 + ([108, 115, 120, 8].foldl edit []).length ∧
      (∀ (j : ℕ) (hj : j < ([108, 115, 120, 8].foldl edit []).length),
        o.screen.crtBuf (3 + j - up * crtCols) =
          cellOf (toInt ([108, 115, 120, 8].foldl edit [])[j])) ∧
      ∀ i < 3, up * crtCols ≤ i → o.screen.crtBuf (i - up * crtCols) = blank :=
  screen_shows_line ⟨0, 0, 0, 0, 0⟩ (fun _ => 0) ⟨fun _ => blank, 3⟩ (by decide)
    [108, 115, 120, 8] noEnter_lsx

end Courses.Jos.Monitor
