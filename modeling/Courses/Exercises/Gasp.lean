import Mathlib.Tactic

/-!
# Searching files for a pattern

`gasp.c` of homework 3. Characters are bytes, in the C locale. Nothing is known of the contents of
the two buffers when `do_pattern_matching` is called. A string without a zero byte in its array and
a line number that is no `int` have no result, and reading a file succeeds once it is open.
-/
namespace Courses.Exercises.Gasp

/-- The characters of a string, without the zero byte at its end. -/
abbrev Str := List UInt8

def maxLineLength : ℕ := 500

def maxPatternLength : ℕ := 100

def dash : UInt8 := 45

def newline : UInt8 := 10

def tolower (c : UInt8) : UInt8 := if 65 ≤ c ∧ c ≤ 90 then c + 32 else c

def bytes (s : String) : Str := s.toList.map fun c => UInt8.ofNat c.toNat

/-- How `%d` prints a number that is not negative. -/
def decimal (n : ℕ) : Str := (Nat.toDigits 10 n).map fun c => UInt8.ofNat c.toNat

/-- `char[MAX_LINE_LENGTH]`. -/
structure Buffer where
  cells : List UInt8
  length_cells : cells.length = maxLineLength

namespace Buffer

/-- The string at the start of a buffer, if it ends there. -/
def string (buffer : Buffer) : Option Str :=
  if 0 ∈ buffer.cells then some (buffer.cells.takeWhile (· ≠ 0)) else none

/-- Write the first cells of a buffer. -/
def write (buffer : Buffer) (cells : List UInt8) : Buffer where
  cells := (cells ++ buffer.cells.drop cells.length).take maxLineLength
  length_cells := by
    rw [List.length_take, List.length_append, List.length_drop, buffer.length_cells]
    omega

end Buffer

/-- The next `n` characters of a file or its next line, whichever is shorter, and the rest. -/
def takeLine : ℕ → List UInt8 → Str × List UInt8
  | 0, file => ([], file)
  | _ + 1, [] => ([], [])
  | n + 1, c :: file =>
    if c = newline then ([c], file) else (c :: (takeLine n file).1, (takeLine n file).2)

/-- `NULL` at the end of the file. -/
def fgets (buffer : Buffer) (file : List UInt8) : Option (Buffer × List UInt8) :=
  if file = [] then none
  else
    let (line, rest) := takeLine (maxLineLength - 1) file
    some (buffer.write (line ++ [0]), rest)

/-- `strncpy(orig, buffer, MAX_LINE_LENGTH)`: the rest of `orig` is filled with zero bytes. -/
def strncpy (orig buffer : Buffer) : Buffer :=
  orig.write (buffer.cells.takeWhile (· ≠ 0) ++ List.replicate maxLineLength 0)

def normalize (buffer : Buffer) : Option Buffer := do
  let str ← buffer.string
  return buffer.write (str.map tolower)

def strstr (s pattern : Str) : Bool := decide (pattern <:+: s)

def shouldIgnoreCase (arg : Str) (orig : Bool) : Bool := orig || decide ((105 : UInt8) ∈ arg)

def shouldContainNumberLines (arg : Str) (orig : Bool) : Bool :=
  orig || decide ((110 : UInt8) ∈ arg)

/-- What is printed for a line. -/
def entry (containNumberLines : Bool) (filename : Str) (lineno : ℕ) (line : Str) : Str :=
  if containNumberLines then
    filename ++ bytes ", " ++ decimal lineno ++ bytes ": " ++ line ++ [newline]
  else filename ++ bytes ": " ++ line ++ [newline]

/-- `lineno += 1`. -/
def increment (lineno : ℕ) : Option ℕ := if lineno + 1 < 2 ^ 31 then some (lineno + 1) else none

theorem takeLine_length (n : ℕ) (file : List UInt8) :
    (takeLine n file).2.length ≤ file.length := by
  induction n generalizing file with
  | zero => exact le_rfl
  | succ n ih =>
    cases file with
    | nil => exact le_rfl
    | cons c file =>
      have hrest := ih file
      rw [takeLine]
      split
      · simp
      · simp only [List.length_cons]
        omega

theorem fgets_length {buffer buffer' : Buffer} {file rest : List UInt8}
    (h : fgets buffer file = some (buffer', rest)) : rest.length < file.length := by
  cases file with
  | nil => cases h
  | cons c file =>
    simp only [fgets, maxLineLength, reduceCtorEq, if_false, Option.some.injEq, Prod.mk.injEq] at h
    have hlength := takeLine_length 498 file
    rw [← h.2, takeLine]
    split
    · simp
    · simp only [List.length_cons]
      omega

section Matching

variable (ignoreCase containNumberLines : Bool) (filename pattern : Str)

/-- What is printed for the line in the first buffer. -/
def printMatch (lineno : ℕ) (buffer orig : Buffer) : Option Str := do
  let str ← buffer.string
  if strstr str pattern then orig.string.map (entry containNumberLines filename lineno)
  else return []

/-- The loop of `do_pattern_matching`, and what it prints to `stdout`. -/
def patternLoop (lineno : ℕ) (buffer orig : Buffer) (file : List UInt8) : Option Str :=
  match h : fgets buffer file with
  | none => some []
  | some (buffer, rest) => do
    let orig := if ignoreCase then strncpy orig buffer else orig
    let buffer ← if ignoreCase then normalize buffer else some buffer
    let printed ← printMatch containNumberLines filename pattern lineno buffer orig
    let lineno ← increment lineno
    return printed ++ (← patternLoop lineno buffer orig rest)
termination_by file.length
decreasing_by exact fgets_length h

def doPatternMatching (buffer orig : Buffer) (file : List UInt8) : Option Str :=
  patternLoop ignoreCase containNumberLines filename pattern 1 buffer orig file

end Matching

/-! ## The program -/

/-- What the program prints, and its exit status. -/
structure Outcome where
  stdout : Str
  stderr : Str
  status : UInt8

/-- The loop over the options: the last two arguments are none. -/
def readOptions (ignoreCase containNumberLines : Bool) : List Str → Bool × Bool × List Str
  | arg :: args =>
    if 2 ≤ args.length ∧ arg.head? = some dash then
      readOptions (shouldIgnoreCase arg ignoreCase)
        (shouldContainNumberLines arg containNumberLines) args
    else (ignoreCase, containNumberLines, arg :: args)
  | [] => (ignoreCase, containNumberLines, [])

/-- What is in the two buffers when `do_pattern_matching` is called for the `i`-th file. -/
abbrev Stack := ℕ → Buffer × Buffer

section Main

variable (fopen : Str → Except ℕ (List UInt8)) (stack : Stack)

/-- The loop over the files. -/
def fileLoop (ignoreCase containNumberLines : Bool) (pattern : Str) (i : ℕ) :
    List Str → Option Outcome
  | [] => some ⟨[], [], 0⟩
  | name :: names =>
    match fopen name with
    | .error errno => do
      let rest ← fileLoop ignoreCase containNumberLines pattern (i + 1) names
      return { rest with
        stderr := bytes "Error opening file: " ++ name ++ bytes ", error: " ++ decimal errno ++
          [newline] ++ rest.stderr }
    | .ok file => do
      let printed ← doPatternMatching ignoreCase containNumberLines name pattern (stack i).1
        (stack i).2 file
      let rest ← fileLoop ignoreCase containNumberLines pattern (i + 1) names
      return { rest with stdout := printed ++ rest.stdout }

/-- `main` of a program `prog` with arguments `args`. -/
def main (prog : Str) (args : List Str) : Option Outcome :=
  if args.length < 2 then
    some ⟨[], bytes "Usage: " ++ prog ++ bytes " [options] STRING FILE...\n", 255⟩
  else
    match readOptions false false args with
    | (_, _, []) => none
    | (ignoreCase, containNumberLines, pattern :: names) =>
      if pattern.length > maxPatternLength then
        some ⟨[], bytes "Pattern is longer than " ++ decimal maxPatternLength ++ bytes " length\n",
          255⟩
      else
        fileLoop fopen stack ignoreCase containNumberLines
          (if ignoreCase then pattern.map tolower else pattern) 0 names

end Main

/-! ## What is asked of the program -/

/-- The lines of a file, each with its newline. -/
def lines : List UInt8 → List Str
  | [] => []
  | c :: file =>
    if c = newline then [c] :: lines file
    else
      match lines file with
      | [] => [[c]]
      | line :: rest => (c :: line) :: rest

/-- Lines that fit into a buffer and contain no zero byte. -/
def Plain (file : List UInt8) : Prop :=
  ∀ line ∈ lines file, line.length < maxLineLength ∧ 0 ∉ line

def inCase (ignoreCase : Bool) (s : Str) : Str := if ignoreCase then s.map tolower else s

def Contains (ignoreCase : Bool) (line pattern : Str) : Prop :=
  inCase ignoreCase pattern <:+: inCase ignoreCase line

instance (ignoreCase : Bool) (line pattern : Str) : Decidable (Contains ignoreCase line pattern) :=
  inferInstanceAs (Decidable (_ <:+: _))

/-- One entry for each line that contains the pattern, the first line with number `lineno`. -/
def entries (ignoreCase containNumberLines : Bool) (filename pattern : Str) (lineno : ℕ)
    (ls : List Str) : Str :=
  (ls.zipIdx lineno).flatMap fun line =>
    if Contains ignoreCase line.1 pattern then entry containNumberLines filename line.2 line.1
    else []

/-- `gasp [options] STRING FILE...` -/
structure Invocation where
  options : List Str
  pattern : Str
  names : List Str
  dash_options : ∀ arg ∈ options, arg.head? = some dash
  names_ne_nil : names ≠ []
  pattern_no_option : pattern.head? = some dash → names.length = 1

namespace Invocation

def args (c : Invocation) : List Str := c.options ++ c.pattern :: c.names

def ignoreCase (c : Invocation) : Bool := c.options.any fun arg => decide ((105 : UInt8) ∈ arg)

def containNumberLines (c : Invocation) : Bool :=
  c.options.any fun arg => decide ((110 : UInt8) ∈ arg)

end Invocation

/-- The entries of all files that can be opened. -/
def expected (fopen : Str → Except ℕ (List UInt8)) (ignoreCase containNumberLines : Bool)
    (pattern : Str) (names : List Str) : Str :=
  names.flatMap fun name =>
    match fopen name with
    | .error _ => []
    | .ok file => entries ignoreCase containNumberLines name pattern 1 (lines file)

/-! ## Lines and buffers -/

theorem lines_eq_nil {file : List UInt8} : lines file = [] ↔ file = [] := by
  constructor
  · intro h
    cases file with
    | nil => rfl
    | cons c file =>
      rw [lines] at h
      split at h
      · cases h
      · split at h
        · cases h
        · cases h
  · rintro rfl
    rfl

theorem takeLine_lines (n : ℕ) : ∀ {file : List UInt8} {line : Str} {ls : List Str},
    lines file = line :: ls → line.length ≤ n →
    ∃ rest, takeLine n file = (line, rest) ∧ lines rest = ls := by
  induction n with
  | zero =>
    intro file line ls hlines hlength
    cases file with
    | nil => cases hlines
    | cons c file =>
      have hnil : line = [] := List.length_eq_zero_iff.mp (Nat.le_zero.mp hlength)
      rw [lines] at hlines
      split at hlines
      · rw [hnil] at hlines
        cases hlines
      · split at hlines
        · rw [hnil] at hlines
          cases hlines
        · rw [hnil] at hlines
          cases hlines
  | succ n ih =>
    intro file line ls hlines hlength
    cases file with
    | nil => cases hlines
    | cons c file =>
      rw [lines] at hlines
      rw [takeLine]
      by_cases hc : c = newline
      · rw [if_pos hc] at hlines ⊢
        cases hlines
        exact ⟨file, rfl, rfl⟩
      · rw [if_neg hc] at hlines ⊢
        cases hrest : lines file with
        | nil =>
          simp only [hrest] at hlines
          cases hlines
          have htake : takeLine n [] = ([], []) := by
            cases n with
            | zero => rfl
            | succ n => rfl
          rw [lines_eq_nil.mp hrest, htake]
          exact ⟨[], rfl, rfl⟩
        | cons line' ls' =>
          simp only [hrest] at hlines
          cases hlines
          obtain ⟨rest, htake, hls⟩ := ih hrest (by simpa using hlength)
          rw [htake]
          exact ⟨rest, rfl, hls⟩

theorem tolower_ne_zero {c : UInt8} (hc : c ≠ 0) : tolower c ≠ 0 := by
  rw [tolower]
  split
  case isTrue h =>
    intro hzero
    have hnat := congrArg UInt8.toNat hzero
    rw [UInt8.le_iff_toNat_le, UInt8.le_iff_toNat_le] at h
    rw [UInt8.toNat_add] at hnat
    simp at h hnat
    omega
  case isFalse => exact hc

namespace Buffer

variable {buffer : Buffer} {s : Str}

/-- A buffer that holds a string. -/
def Holds (buffer : Buffer) (s : Str) : Prop := 0 ∉ s ∧ ∃ rest, buffer.cells = s ++ 0 :: rest

theorem Holds.takeWhile (h : buffer.Holds s) : buffer.cells.takeWhile (· ≠ 0) = s := by
  obtain ⟨hs, rest, hcells⟩ := h
  rw [hcells, List.takeWhile_append_of_pos]
  · simp
  · intro c hc
    simp only [decide_eq_true_eq]
    intro hzero
    exact hs (hzero ▸ hc)

theorem Holds.string (h : buffer.Holds s) : buffer.string = some s := by
  have htake := h.takeWhile
  obtain ⟨_, rest, hcells⟩ := h
  rw [Buffer.string, if_pos (by rw [hcells]; simp), htake]

theorem Holds.length_lt (h : buffer.Holds s) : s.length < maxLineLength := by
  obtain ⟨_, rest, hcells⟩ := h
  have hlength := buffer.length_cells
  rw [hcells, List.length_append, List.length_cons] at hlength
  omega

theorem cells_write (buffer : Buffer) (cells : List UInt8) :
    (buffer.write cells).cells = (cells ++ buffer.cells.drop cells.length).take maxLineLength := rfl

theorem holds_write (buffer : Buffer) {more : List UInt8} (hs : 0 ∉ s)
    (hlength : s.length < maxLineLength) : (buffer.write (s ++ 0 :: more)).Holds s := by
  refine ⟨hs, (more ++ buffer.cells.drop (s ++ 0 :: more).length).take
    (maxLineLength - (s.length + 1)), ?_⟩
  rw [cells_write, List.append_assoc, List.take_append, List.take_of_length_le hlength.le,
    List.cons_append, show maxLineLength - s.length = (maxLineLength - (s.length + 1)) + 1 by omega,
    List.take_succ_cons]

theorem Holds.strncpy (h : buffer.Holds s) (orig : Buffer) :
    (Gasp.strncpy orig buffer).Holds s := by
  rw [Gasp.strncpy, h.takeWhile]
  exact holds_write orig h.1 h.length_lt

theorem Holds.normalize (h : buffer.Holds s) :
    ∃ buffer', Gasp.normalize buffer = some buffer' ∧ buffer'.Holds (s.map tolower) := by
  refine ⟨buffer.write (s.map tolower), ?_, ?_, ?_⟩
  · rw [Gasp.normalize, h.string]
    rfl
  · intro hzero
    obtain ⟨c, hc, hc'⟩ := List.mem_map.mp hzero
    exact tolower_ne_zero (fun hzero => h.1 (hzero ▸ hc)) hc'
  · obtain ⟨_, rest, hcells⟩ := h
    have hlength := buffer.length_cells
    refine ⟨rest, ?_⟩
    rw [hcells, List.length_append, List.length_cons] at hlength
    have htail : buffer.cells.drop (s.map tolower).length = 0 :: rest := by
      rw [hcells, List.length_map, List.drop_left]
    rw [cells_write, htail, List.take_of_length_le]
    rw [List.length_append, List.length_map, List.length_cons]
    omega

end Buffer

theorem fgets_line (buffer : Buffer) {file : List UInt8} {line : Str} {ls : List Str}
    (hlines : lines file = line :: ls) (hlength : line.length < maxLineLength) (hzero : 0 ∉ line) :
    ∃ buffer' rest, fgets buffer file = some (buffer', rest) ∧ buffer'.Holds line ∧
      lines rest = ls := by
  obtain ⟨rest, htake, hrest⟩ := takeLine_lines (maxLineLength - 1) hlines (by omega)
  have hne : file ≠ [] := by
    rintro rfl
    cases hlines
  refine ⟨buffer.write (line ++ [0]), rest, ?_, Buffer.holds_write buffer hzero hlength, hrest⟩
  rw [fgets, if_neg hne, htake]

section Loop

variable {ignoreCase containNumberLines : Bool} {filename pattern : Str}

theorem entries_cons (lineno : ℕ) (line : Str) (ls : List Str) :
    entries ignoreCase containNumberLines filename pattern lineno (line :: ls) =
      (if Contains ignoreCase line pattern then entry containNumberLines filename lineno line
        else []) ++ entries ignoreCase containNumberLines filename pattern (lineno + 1) ls := by
  rw [entries, List.zipIdx_cons, List.flatMap_cons]
  rfl

theorem patternLoop_nil (lineno : ℕ) (buffer orig : Buffer) :
    patternLoop ignoreCase containNumberLines filename pattern lineno buffer orig [] = some [] := by
  rw [patternLoop]
  rfl

theorem patternLoop_of_fgets {lineno : ℕ} {buffer buffer' orig : Buffer} {file rest : List UInt8}
    (h : fgets buffer file = some (buffer', rest)) :
    patternLoop ignoreCase containNumberLines filename pattern lineno buffer orig file = (do
      let orig := if ignoreCase then strncpy orig buffer' else orig
      let buffer ← if ignoreCase then normalize buffer' else some buffer'
      let printed ← printMatch containNumberLines filename pattern lineno buffer orig
      let lineno ← increment lineno
      return printed ++ (← patternLoop ignoreCase containNumberLines filename pattern lineno buffer
        orig rest)) := by
  rw [patternLoop]
  split
  case h_1 hnone =>
    rw [h] at hnone
    cases hnone
  case h_2 hsome =>
    rw [h] at hsome
    cases hsome
    rfl

/-- The buffers after the loop has read and copied a line. -/
structure Read (ignoreCase : Bool) (orig : Buffer) (line : Str) (orig' : Buffer) : Prop where
  copied : ignoreCase = true → orig'.string = some line
  kept : ignoreCase = false → orig' = orig

/-- The loop on the next line. -/
theorem patternLoop_line (lineno : ℕ) (buffer orig : Buffer) {file : List UInt8} {line : Str}
    {ls : List Str} (hlines : lines file = line :: ls) (hplain : Plain file) :
    ∃ buffer' orig' rest, lines rest = ls ∧ Plain rest ∧ Read ignoreCase orig line orig' ∧
      patternLoop ignoreCase containNumberLines filename (inCase ignoreCase pattern) lineno buffer
        orig file =
        (if Contains ignoreCase line pattern then
          orig'.string.map (entry containNumberLines filename lineno) else some []).bind
        fun printed => (increment lineno).bind fun lineno =>
        (patternLoop ignoreCase containNumberLines filename (inCase ignoreCase pattern) lineno
          buffer' orig' rest).bind fun more => some (printed ++ more) := by
  obtain ⟨hlength, hzero⟩ := hplain line (by rw [hlines]; exact List.mem_cons_self)
  obtain ⟨buffer', rest, hfgets, hholds, hrest⟩ := fgets_line buffer hlines hlength hzero
  have hplain' : Plain rest := by
    intro line' hline'
    apply hplain
    rw [hlines, ← hrest]
    exact List.mem_cons_of_mem line hline'
  cases ignoreCase with
  | true =>
    obtain ⟨normal, hnormal, hlower⟩ := hholds.normalize
    refine ⟨normal, strncpy orig buffer', rest, hrest, hplain', ⟨?_, ?_⟩, ?_⟩
    · intro _
      exact (hholds.strncpy orig).string
    · intro h
      cases h
    · rw [patternLoop_of_fgets hfgets]
      simp only [if_true, hnormal, Option.bind_eq_bind, Option.bind_some, printMatch,
        hlower.string, strstr, decide_eq_true_eq, Contains, inCase]
      rfl
  | false =>
    refine ⟨buffer', orig, rest, hrest, hplain', ⟨?_, ?_⟩, ?_⟩
    · intro h
      cases h
    · intro _
      rfl
    · rw [patternLoop_of_fgets hfgets]
      simp only [Bool.false_eq_true, if_false, Option.bind_eq_bind, Option.bind_some, printMatch,
        hholds.string, strstr, decide_eq_true_eq, Contains, inCase]
      rfl

theorem increment_ok {lineno : ℕ} (h : lineno + 1 < 2 ^ 31) :
    increment lineno = some (lineno + 1) := if_pos h

theorem increment_error {lineno : ℕ} (h : 2 ^ 31 ≤ lineno + 1) : increment lineno = none :=
  if_neg (not_lt.mpr h)

/-- The entries of all lines, if the lines are copied or none contains the pattern. -/
theorem patternLoop_ok (ls : List Str) : ∀ (lineno : ℕ) (buffer orig : Buffer) (file : List UInt8),
    lines file = ls → Plain file → lineno + ls.length < 2 ^ 31 →
    (ignoreCase = true ∨ ∀ line ∈ ls, ¬Contains ignoreCase line pattern) →
    patternLoop ignoreCase containNumberLines filename (inCase ignoreCase pattern) lineno buffer
      orig file = some (entries ignoreCase containNumberLines filename pattern lineno ls) := by
  induction ls with
  | nil =>
    intro lineno buffer orig file hlines _ _ _
    rw [lines_eq_nil.mp hlines, patternLoop_nil]
    rfl
  | cons line ls ih =>
    intro lineno buffer orig file hlines hplain hnumber hcase
    obtain ⟨buffer', orig', rest, hrest, hplain', hread, hloop⟩ := @patternLoop_line ignoreCase
      containNumberLines filename pattern lineno buffer orig file line ls hlines hplain
    rw [List.length_cons] at hnumber
    have hcase' : ignoreCase = true ∨ ∀ line ∈ ls, ¬Contains ignoreCase line pattern := by
      cases hcase with
      | inl hignore => exact Or.inl hignore
      | inr hnone =>
        right
        intro line' hline'
        exact hnone line' (List.mem_cons_of_mem line hline')
    have htail := ih (lineno + 1) buffer' orig' rest hrest hplain' (by omega) hcase'
    rw [hloop, increment_ok (by omega)]
    by_cases hcontains : Contains ignoreCase line pattern
    · have horig : orig'.string = some line := by
        cases hcase with
        | inl hignore => exact hread.copied hignore
        | inr hnone => exact absurd hcontains (hnone line List.mem_cons_self)
      simp [entries_cons, hcontains, horig, htail]
    · simp [entries_cons, hcontains, htail]

/-- The number of the last line is too large. -/
theorem patternLoop_overflow (ls : List Str) :
    ∀ (lineno : ℕ) (buffer orig : Buffer) (file : List UInt8),
    lines file = ls → Plain file → lineno < 2 ^ 31 → 2 ^ 31 ≤ lineno + ls.length →
    patternLoop ignoreCase containNumberLines filename (inCase ignoreCase pattern) lineno buffer
      orig file = none := by
  induction ls with
  | nil =>
    intro lineno buffer orig file _ _ hlt hle
    rw [List.length_nil] at hle
    omega
  | cons line ls ih =>
    intro lineno buffer orig file hlines hplain hlt hle
    obtain ⟨buffer', orig', rest, hrest, hplain', hread, hloop⟩ := @patternLoop_line ignoreCase
      containNumberLines filename pattern lineno buffer orig file line ls hlines hplain
    rw [List.length_cons] at hle
    have htail : ∀ n, increment lineno = some n →
        patternLoop ignoreCase containNumberLines filename (inCase ignoreCase pattern) n buffer'
          orig' rest = none := by
      intro n hn
      by_cases hnumber : lineno + 1 < 2 ^ 31
      · rw [increment_ok hnumber] at hn
        cases hn
        exact ih (lineno + 1) buffer' orig' rest hrest hplain' hnumber (by omega)
      · rw [increment_error (not_lt.mp hnumber)] at hn
        cases hn
    rw [hloop]
    simp only [Option.bind_eq_none_iff]
    intro printed _ n hn more hmore
    rw [htail n hn] at hmore
    cases hmore

/-- Without the option `i` nothing is copied to the second buffer. -/
theorem patternLoop_unread (ls : List Str) :
    ∀ (lineno : ℕ) (buffer orig : Buffer) (file : List UInt8),
    lines file = ls → Plain file → orig.string = none →
    (∃ line ∈ ls, Contains false line pattern) →
    patternLoop false containNumberLines filename (inCase false pattern) lineno buffer orig file =
      none := by
  induction ls with
  | nil =>
    intro lineno buffer orig file _ _ _ hcontains
    obtain ⟨line, hline, _⟩ := hcontains
    cases hline
  | cons line ls ih =>
    intro lineno buffer orig file hlines hplain hstring hcontains
    obtain ⟨buffer', orig', rest, hrest, hplain', hread, hloop⟩ := @patternLoop_line false
      containNumberLines filename pattern lineno buffer orig file line ls hlines hplain
    rw [hloop, hread.kept rfl]
    by_cases hline : Contains false line pattern
    · simp [hline, hstring]
    · have hcontains' : ∃ line ∈ ls, Contains false line pattern := by
        obtain ⟨line', hmem, hline'⟩ := hcontains
        cases List.mem_cons.mp hmem with
        | inl heq => exact absurd (heq ▸ hline') hline
        | inr hmem => exact ⟨line', hmem, hline'⟩
      simp [hline, fun n => ih n buffer' orig rest hrest hplain' hstring hcontains']

end Loop

/-! ## The program meets its task -/

/-- All lines have a number, and they are copied before they are printed. -/
def Printable (ignoreCase : Bool) (pattern : Str) (file : List UInt8) : Prop :=
  (lines file).length + 1 < 2 ^ 31 ∧
    (ignoreCase = true ∨ ∀ line ∈ lines file, ¬Contains ignoreCase line pattern)

section Main

variable {fopen : Str → Except ℕ (List UInt8)} {ignoreCase containNumberLines : Bool}
  {pattern name : Str} {names : List Str} {file : List UInt8}

theorem doPatternMatching_ok (hplain : Plain file) (h : Printable ignoreCase pattern file)
    (buffer orig : Buffer) :
    doPatternMatching ignoreCase containNumberLines name (inCase ignoreCase pattern) buffer orig
      file = some (entries ignoreCase containNumberLines name pattern 1 (lines file)) :=
  patternLoop_ok (lines file) 1 buffer orig file rfl hplain (by rw [Nat.add_comm]; exact h.1) h.2

/-- A buffer that holds no string. -/
def unread : Buffer where
  cells := List.replicate maxLineLength 1
  length_cells := List.length_replicate

theorem string_unread : unread.string = none := by
  rw [Buffer.string, if_neg]
  intro h
  have hone := List.eq_of_mem_replicate h
  exact absurd hone (by decide)

theorem doPatternMatching_error (hplain : Plain file) (h : ¬Printable ignoreCase pattern file) :
    doPatternMatching ignoreCase containNumberLines name (inCase ignoreCase pattern) unread unread
      file = none := by
  by_cases hnumber : (lines file).length + 1 < 2 ^ 31
  · cases ignoreCase with
    | true => exact absurd ⟨hnumber, Or.inl rfl⟩ h
    | false =>
      apply patternLoop_unread (lines file) 1 unread unread file rfl hplain string_unread
      by_contra hnone
      push Not at hnone
      exact h ⟨hnumber, Or.inr hnone⟩
  · exact patternLoop_overflow (lines file) 1 unread unread file rfl hplain (by omega) (by omega)

theorem fileLoop_ok (stack : Stack) (names : List Str) : ∀ (i : ℕ),
    (∀ name ∈ names, ∀ file, fopen name = .ok file →
      Plain file ∧ Printable ignoreCase pattern file) →
    (fileLoop fopen stack ignoreCase containNumberLines (inCase ignoreCase pattern) i names).map
      Outcome.stdout = some (expected fopen ignoreCase containNumberLines pattern names) := by
  induction names with
  | nil =>
    intro i _
    rfl
  | cons name names ih =>
    intro i h
    have hrest := ih (i + 1) fun name' hname' => h name' (List.mem_cons_of_mem name hname')
    rw [expected, List.flatMap_cons, ← expected, fileLoop]
    cases hopen : fopen name with
    | error errno =>
      cases hloop : fileLoop fopen stack ignoreCase containNumberLines (inCase ignoreCase pattern)
        (i + 1) names with
      | none =>
        rw [hloop] at hrest
        cases hrest
      | some outcome =>
        rw [hloop] at hrest
        simpa using hrest
    | ok file =>
      obtain ⟨hplain, hprintable⟩ := h name List.mem_cons_self file hopen
      cases hloop : fileLoop fopen stack ignoreCase containNumberLines (inCase ignoreCase pattern)
        (i + 1) names with
      | none =>
        rw [hloop] at hrest
        cases hrest
      | some outcome =>
        rw [hloop] at hrest
        simp only [Option.map_some, Option.some.injEq] at hrest
        simp [doPatternMatching_ok hplain hprintable, hrest]

/-- One file that is not printed stops the program. -/
theorem fileLoop_error (stack : Stack) (names : List Str) : ∀ (i : ℕ),
    (∃ name ∈ names, ∃ file, fopen name = .ok file ∧ ∀ i, doPatternMatching ignoreCase
      containNumberLines name pattern (stack i).1 (stack i).2 file = none) →
    fileLoop fopen stack ignoreCase containNumberLines pattern i names = none := by
  induction names with
  | nil =>
    intro i h
    obtain ⟨name, hname, _⟩ := h
    cases hname
  | cons name names ih =>
    intro i h
    obtain ⟨name', hname', file', hopen', hnone⟩ := h
    rw [fileLoop]
    cases List.mem_cons.mp hname' with
    | inl heq =>
      rw [heq] at hopen' hnone
      rw [hopen']
      simp [hnone i]
    | inr hmem =>
      have hrest := ih (i + 1) ⟨name', hmem, file', hopen', hnone⟩
      cases fopen name with
      | error errno => simp [hrest]
      | ok file => simp [hrest]

theorem readOptions_args (options : List Str) : ∀ (ignoreCase containNumberLines : Bool),
    (∀ arg ∈ options, arg.head? = some dash) → names ≠ [] →
    (pattern.head? = some dash → names.length = 1) →
    readOptions ignoreCase containNumberLines (options ++ pattern :: names) =
      (ignoreCase || options.any fun arg => decide ((105 : UInt8) ∈ arg),
        containNumberLines || options.any fun arg => decide ((110 : UInt8) ∈ arg),
        pattern :: names) := by
  induction options with
  | nil =>
    intro ignoreCase containNumberLines _ _ hpattern
    rw [List.nil_append, readOptions, if_neg]
    · simp
    · rintro ⟨hlength, hdash⟩
      rw [hpattern hdash] at hlength
      omega
  | cons arg options ih =>
    intro ignoreCase containNumberLines hoptions hnames hpattern
    have hlength : 2 ≤ (options ++ pattern :: names).length := by
      have hpos := List.length_pos_iff.mpr hnames
      rw [List.length_append, List.length_cons]
      omega
    rw [List.cons_append, readOptions, if_pos ⟨hlength, hoptions arg List.mem_cons_self⟩,
      ih _ _ (fun arg' harg' => hoptions arg' (List.mem_cons_of_mem arg harg')) hnames hpattern]
    simp only [shouldIgnoreCase, shouldContainNumberLines, List.any_cons, Bool.or_assoc]

theorem main_args (stack : Stack) (prog : Str) (c : Invocation)
    (hpattern : c.pattern.length ≤ maxPatternLength) :
    main fopen stack prog c.args = fileLoop fopen stack c.ignoreCase c.containNumberLines
      (inCase c.ignoreCase c.pattern) 0 c.names := by
  have hlength : ¬c.args.length < 2 := by
    have hpos := List.length_pos_iff.mpr c.names_ne_nil
    rw [Invocation.args, List.length_append, List.length_cons]
    omega
  rw [main, if_neg hlength, Invocation.args, readOptions_args c.options false false c.dash_options
    c.names_ne_nil c.pattern_no_option]
  simp only [Bool.false_or, if_neg (not_lt.mpr hpattern)]
  rfl

/-- The program prints the lines that contain the pattern, whatever is in its buffers, if and only
if the option `i` is given or there are none. -/
theorem main_iff (prog : Str) (c : Invocation) (hpattern : c.pattern.length ≤ maxPatternLength)
    (hfiles : ∀ name ∈ c.names, ∀ file, fopen name = .ok file → Plain file) :
    (∀ stack, (main fopen stack prog c.args).map Outcome.stdout =
        some (expected fopen c.ignoreCase c.containNumberLines c.pattern c.names)) ↔
      ∀ name ∈ c.names, ∀ file, fopen name = .ok file → Printable c.ignoreCase c.pattern file := by
  constructor
  · intro hmain name hname file hopen
    by_contra hnot
    have hstack := hmain fun _ => (unread, unread)
    rw [main_args _ prog c hpattern, fileLoop_error] at hstack
    · cases hstack
    · exact ⟨name, hname, file, hopen,
        fun _ => doPatternMatching_error (hfiles name hname file hopen) hnot⟩
  · intro hprintable stack
    rw [main_args stack prog c hpattern]
    apply fileLoop_ok
    intro name hname file hopen
    exact ⟨hfiles name hname file hopen, hprintable name hname file hopen⟩

/-- `gasp STRING FILE` with one of the options. -/
def search (options : List Str) (h : ∀ arg ∈ options, arg.head? = some dash) : Invocation where
  options := options
  pattern := bytes "a"
  names := [bytes "f"]
  dash_options := h
  names_ne_nil := List.cons_ne_nil _ _
  pattern_no_option := fun _ => rfl

/-- A file with the line `Ab`. -/
def oneLine : Str → Except ℕ (List UInt8) := fun _ => .ok (bytes "Ab\n")

theorem plain_oneLine : Plain (bytes "Ab\n") := by
  rw [Plain]
  decide

theorem main_iff_ignoreCase :
    (main oneLine (fun _ => (unread, unread)) (bytes "gasp")
      (search [bytes "-in"] (List.forall_mem_singleton.mpr rfl)).args).map Outcome.stdout =
        some (bytes "f, 1: Ab\n\n") :=
  (main_iff (bytes "gasp") (search [bytes "-in"] (List.forall_mem_singleton.mpr rfl)) (by decide)
    (by
      intro name _ file hopen
      cases hopen
      exact plain_oneLine)).mpr (by
        intro name _ file hopen
        cases hopen
        exact ⟨by decide, Or.inl rfl⟩) fun _ => (unread, unread)

/-- A buffer of zero bytes. -/
def zeros : Buffer where
  cells := List.replicate maxLineLength 0
  length_cells := List.length_replicate

theorem doPatternMatching_zeros : doPatternMatching false false (bytes "f") (bytes "a") zeros zeros
    (bytes "ab\n") = some (bytes "f: \n") := by
  have hplain : Plain (bytes "ab\n") := by
    rw [Plain]
    decide
  obtain ⟨buffer, orig, rest, hrest, _, hread, hloop⟩ := @patternLoop_line false false (bytes "f")
    (bytes "a") 1 zeros zeros (bytes "ab\n") (bytes "ab\n") [] (by decide) hplain
  have hcontains : Contains false (bytes "ab\n") (bytes "a") := by decide
  have hzeros : zeros.Holds [] := by
    refine ⟨List.not_mem_nil, List.replicate 499 0, rfl⟩
  have hrest : rest = [] := lines_eq_nil.mp hrest
  have horig : orig = zeros := hread.kept rfl
  subst hrest horig
  simp only [if_pos hcontains, hzeros.string, increment_ok (show 1 + 1 < 2 ^ 31 by decide),
    Option.map_some, Option.bind_some, patternLoop_nil] at hloop
  exact hloop

/-- Without the option `i` the line is not copied to the second buffer, which here is empty. -/
theorem main_prints_other_line : ¬∀ stack, (main (fun _ => .ok (bytes "ab\n")) stack (bytes "gasp")
      (search [] (List.forall_mem_nil _)).args).map Outcome.stdout =
        some (expected (fun _ => .ok (bytes "ab\n")) false false (bytes "a") [bytes "f"]) := by
  intro h
  have hzeros := h fun _ => (zeros, zeros)
  rw [main_args _ _ _ (by decide)] at hzeros
  simp only [search, fileLoop, Invocation.ignoreCase, Invocation.containNumberLines, List.any_nil,
    inCase, Bool.false_eq_true, if_false, doPatternMatching_zeros, Option.bind_eq_bind,
    Option.bind_some] at hzeros
  revert hzeros
  decide

end Main

end Courses.Exercises.Gasp
