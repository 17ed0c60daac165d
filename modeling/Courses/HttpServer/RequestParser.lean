import Courses.HttpServer.Connection
import Courses.Lib.Entries
import Mathlib.Data.List.DropRight

/-!
# Parsing a request header

`ParseRequest` of `hw4` splits the header into lines, takes the URI from the first and
turns the others to lower case before it looks for the colon, so that header names are
kept in lower case only. A well-formed request is the text that `HttpRequest.h`
describes; its bytes reach the parser as one piece, and the parser finds its URI.
-/
namespace Courses.HttpServer

open Lib

structure HttpRequest where
  uri : List UInt8
  headers : List UInt8 → Option (List UInt8)

/-! ### `ParseRequest` -/

/-- `to_lower` of a character, in the locale of a C program. -/
def tolower (c : UInt8) : UInt8 := if 65 ≤ c ∧ c ≤ 90 then c + 32 else c

/-- `is_space`: a blank or one of `\t`, `\n`, `\v`, `\f`, `\r`. -/
def isSpace (c : UInt8) : Bool := c = 32 ∨ (9 ≤ c ∧ c ≤ 13)

/-- `boost::trim`. -/
def trim (s : List UInt8) : List UInt8 := (s.dropWhile isSpace).rdropWhile isSpace

/-- `is_any_of("\r\n")`. -/
def isLineEnd (c : UInt8) : Bool := c = 13 ∨ c = 10

/-- `is_any_of("\t ")`. -/
def isBlank (c : UInt8) : Bool := c = 9 ∨ c = 32

/-- The loop body of `ParseRequest` for a line after the first. -/
@[grind]
def parseHeaderLine (headers : List UInt8 → Option (List UInt8)) (line : List UInt8) :
    List UInt8 → Option (List UInt8) :=
  match (line.map tolower).splitOn 58 with
  | [name, value] => Function.update headers (trim name) (some (trim value))
  | _ => headers

/-- `ParseRequest` of the header `str`; `none` when the first line has no second word, where
the source reads `firstRow[1]` beyond the end of the vector. -/
@[grind]
def parseRequest (str : List UInt8) : Option HttpRequest :=
  let lines := splitRuns isLineEnd str
  let firstRow := splitRuns isBlank (lines.headD [])
  match firstRow[1]? with
  | none => none
  | some uri => some ⟨uri, lines.tail.foldl parseHeaderLine fun _ => none⟩

/-! ### Header names are in lower case -/

theorem tolower_tolower (c : UInt8) : tolower (tolower c) = tolower c := by
  unfold tolower
  split
  · rename_i hc
    rw [if_neg]
    intro h
    have h1 := UInt8.le_iff_toNat_le.1 hc.1
    have h2 := UInt8.le_iff_toNat_le.1 hc.2
    have h3 := UInt8.le_iff_toNat_le.1 h.2
    rw [UInt8.toNat_add] at h3
    simp only [UInt8.reduceToNat] at h1 h2 h3
    omega
  · rfl

def IsLower (s : List UInt8) : Prop := ∀ c ∈ s, tolower c = c

theorem isLower_trim {s : List UInt8} (h : IsLower s) : IsLower (trim s) := by
  intro c hc
  have hdrop := (List.rdropWhile_prefix isSpace _).subset hc
  exact h c ((List.dropWhile_suffix isSpace).subset hdrop)

/-- A text of two pieces is the two with the separator between them. -/
theorem eq_of_splitOn_pair {s left right : List UInt8} {c : UInt8}
    (h : s.splitOn c = [left, right]) : s = left ++ c :: right := by
  have hjoin : [c].intercalate (s.splitOn c) = s := List.intercalate_splitOn c
  rw [h] at hjoin
  simpa [List.intercalate] using hjoin.symm

theorem parseHeaderLine_cases (headers : List UInt8 → Option (List UInt8)) (line : List UInt8) :
    (∃ left right, (line.map tolower).splitOn 58 = [left, right] ∧
      parseHeaderLine headers line = Function.update headers (trim left) (some (trim right))) ∨
    parseHeaderLine headers line = headers := by
  unfold parseHeaderLine
  split
  · rename_i left right hpair
    exact .inl ⟨left, right, hpair, rfl⟩
  · exact .inr rfl

theorem parseHeaderLine_lower {headers : List UInt8 → Option (List UInt8)} (line : List UInt8)
    (h : ∀ name, headers name ≠ none → IsLower name) (name : List UInt8)
    (hname : parseHeaderLine headers line name ≠ none) : IsLower name := by
  obtain ⟨left, right, hpair, heq⟩ | heq := parseHeaderLine_cases headers line
  · rw [heq] at hname
    by_cases hleft : name = trim left
    · rw [hleft]
      apply isLower_trim
      intro c hc
      have hmem : c ∈ line.map tolower := by
        rw [eq_of_splitOn_pair hpair]
        exact List.mem_append_left _ hc
      obtain ⟨b, -, rfl⟩ := List.mem_map.1 hmem
      exact tolower_tolower b
    · rw [Function.update_of_ne hleft] at hname
      exact h name hname
  · rw [heq] at hname
    exact h name hname

theorem foldl_parseHeaderLine_lower (lines : List (List UInt8))
    {headers : List UInt8 → Option (List UInt8)} (h : ∀ name, headers name ≠ none → IsLower name) :
    ∀ name, lines.foldl parseHeaderLine headers name ≠ none → IsLower name := by
  induction lines generalizing headers with
  | nil => exact h
  | cons line lines ih => exact ih fun name => parseHeaderLine_lower line h name

theorem parseRequest_headers_lower {str : List UInt8} {req : HttpRequest}
    (h : parseRequest str = some req) (name : List UInt8) (hname : req.headers name ≠ none) :
    IsLower name := by
  simp only [parseRequest] at h
  split at h
  · cases h
  · cases h
    exact foldl_parseHeaderLine_lower _ (fun _ hnone => absurd rfl hnone) name hname

/-- No request has a header under a name with a capital letter. -/
theorem parseRequest_connection {str : List UInt8} {req : HttpRequest}
    (h : parseRequest str = some req) : req.headers (ascii "Connection") = none := by
  by_contra hne
  have hlower := parseRequest_headers_lower h _ hne
  have hcapital : ¬ ∀ c ∈ ascii "Connection", tolower c = c := by with_unfolding_all decide
  exact hcapital hlower

/-! ### Well-formed requests -/

def crlf : List UInt8 := [13, 10]

/-- A line `[headername]: [headerval]`. -/
structure HeaderLine where
  name : List UInt8
  value : List UInt8
  name_nonempty : name ≠ []
  name_clean : ∀ c ∈ name, isSpace c = false ∧ c ≠ 58
  value_clean : ∀ c ∈ value, isLineEnd c = false

def HeaderLine.text (h : HeaderLine) : List UInt8 := h.name ++ ascii ": " ++ h.value

/-- A request in the format of `HttpRequest.h`. -/
structure RequestText where
  uri : List UInt8
  protocol : List UInt8
  headers : List HeaderLine
  uri_nonempty : uri ≠ []
  uri_clean : ∀ c ∈ uri, isSpace c = false
  protocol_nonempty : protocol ≠ []
  protocol_clean : ∀ c ∈ protocol, isSpace c = false

namespace RequestText

variable (r : RequestText)

def firstLine : List UInt8 := ascii "GET " ++ r.uri ++ ascii " " ++ r.protocol

def text : List UInt8 :=
  r.firstLine ++ crlf ++ r.headers.flatMap (fun h => h.text ++ crlf) ++ crlf

/-- The request carries a `Connection` header, in any letter case, with value `close`. -/
def carriesClose : Bool :=
  r.headers.any fun h => h.name.map tolower = ascii "connection" ∧ trim h.value = ascii "close"

/-! ### The text reaches the parser as one piece -/

variable {r}

theorem isLineEnd_of_isSpace {c : UInt8} (h : isSpace c = false) : isLineEnd c = false := by
  by_contra hend
  simp only [isLineEnd, decide_eq_true_eq, Bool.not_eq_false] at hend
  rcases hend with rfl | rfl <;> exact absurd h (by decide)

theorem isBlank_of_isSpace {c : UInt8} (h : isSpace c = false) : isBlank c = false := by
  by_contra hblank
  simp only [isBlank, decide_eq_true_eq, Bool.not_eq_false] at hblank
  rcases hblank with rfl | rfl <;> exact absurd h (by decide)

theorem forall_mem_of_all {l : List UInt8} {p : UInt8 → Bool} (h : l.all (fun c => !p c) = true) :
    ∀ c ∈ l, p c = false := by
  simpa using h

theorem firstLine_clean : ∀ c ∈ r.firstLine, isLineEnd c = false := by
  intro c hc
  simp only [firstLine, List.mem_append] at hc
  obtain ((hc | hc) | hc) | hc := hc
  · exact forall_mem_of_all (by with_unfolding_all decide) c hc
  · exact isLineEnd_of_isSpace (r.uri_clean c hc)
  · exact forall_mem_of_all (by with_unfolding_all decide) c hc
  · exact isLineEnd_of_isSpace (r.protocol_clean c hc)

theorem headerLine_clean (h : HeaderLine) : ∀ c ∈ h.text, isLineEnd c = false := by
  intro c hc
  simp only [HeaderLine.text, List.mem_append] at hc
  obtain (hc | hc) | hc := hc
  · exact isLineEnd_of_isSpace (h.name_clean c hc).1
  · exact forall_mem_of_all (by with_unfolding_all decide) c hc
  · exact h.value_clean c hc

/-- Behind a line comes the next line, or the blank line that ends the header. -/
theorem find_terminator_line {line rest : List UInt8} {pos : ℕ}
    (hline : ∀ c ∈ line, isLineEnd c = false) (hrest : rest.head? ≠ some 13)
    (h : find terminator rest = some pos) :
    find terminator (line ++ crlf ++ rest) = some (line.length + 2 + pos) := by
  have hno : (13 : UInt8) ∉ line := fun hmem => absurd (hline 13 hmem) (by decide)
  have hcr : find terminator (crlf ++ rest) = some (pos + 2) := by
    have hhead : terminator.isPrefixOf (13 :: 10 :: rest) = false := by
      cases rest with
      | nil => rfl
      | cons c rest =>
        have hc : c ≠ 13 := fun heq => hrest (by rw [heq]; rfl)
        simp [terminator, List.isPrefixOf, hc.symm]
    have hlf : terminator.isPrefixOf (10 :: rest) = false := rfl
    simp [crlf, find, hhead, hlf, h]
  rw [List.append_assoc, terminator, find_append_of_not_mem hno, ← terminator, hcr]
  simp only [Option.map_some, Option.some.injEq]
  omega

theorem head?_headerLine (h : HeaderLine) (rest : List UInt8) :
    (h.text ++ rest).head? ≠ some 13 := by
  cases hname : h.name with
  | nil => exact absurd hname h.name_nonempty
  | cons c name =>
    have hc := isLineEnd_of_isSpace (h.name_clean c (by rw [hname]; exact List.mem_cons_self)).1
    simp only [HeaderLine.text, hname, List.cons_append, List.head?_cons, ne_eq, Option.some.injEq]
    rintro rfl
    exact absurd hc (by decide)

/-- The lines `line`, `headers` and the blank line: the only terminator is at the end. -/
theorem find_terminator_lines (headers : List HeaderLine) {line : List UInt8}
    (hline : ∀ c ∈ line, isLineEnd c = false) (more : List UInt8) :
    find terminator (line ++ crlf ++ (headers.flatMap (fun h => h.text ++ crlf) ++ crlf ++ more)) =
      some (line.length + (headers.flatMap fun h => h.text ++ crlf).length) := by
  induction headers generalizing line with
  | nil =>
    have hno : (13 : UInt8) ∉ line := fun hmem => absurd (hline 13 hmem) (by decide)
    rw [List.append_assoc, terminator, find_append_of_not_mem hno]
    simp [crlf, find]
  | cons h headers ih =>
    have hrest := ih (headerLine_clean h)
    have hfind := find_terminator_line hline (by
      rw [List.append_assoc]
      exact head?_headerLine h _) hrest
    simp only [List.flatMap_cons, List.append_assoc, List.length_append] at hfind ⊢
    rw [hfind]
    simp only [crlf, List.length_cons, List.length_nil, Option.some.injEq]
    omega

theorem find_terminator_text (more : List UInt8) :
    ∃ pos, find terminator (r.text ++ more) = some pos ∧ pos + 4 = r.text.length := by
  have hfind := find_terminator_lines r.headers (firstLine_clean (r := r)) more
  refine ⟨r.firstLine.length + (r.headers.flatMap fun h => h.text ++ crlf).length, ?_, ?_⟩
  · simpa only [text, List.append_assoc] using hfind
  · simp only [text, crlf, List.length_append, List.length_cons, List.length_nil]
    omega

/-! ### The parser finds the URI -/

theorem splitRuns_firstLine : (splitRuns isBlank r.firstLine)[1]? = some r.uri := by
  have hline : r.firstLine = ascii "GET" ++ 32 :: (r.uri ++ 32 :: r.protocol) := by
    have hget : ascii "GET " = ascii "GET" ++ [32] := by with_unfolding_all decide
    have hblank : ascii " " = [32] := by with_unfolding_all decide
    simp [firstLine, hget, hblank]
  have huri : ∀ c ∈ r.uri, isBlank c = false := fun c hc => isBlank_of_isSpace (r.uri_clean c hc)
  have hstart : startsWithSep isBlank (r.uri ++ 32 :: r.protocol) = false := by
    cases hcons : r.uri with
    | nil => exact absurd hcons r.uri_nonempty
    | cons c uri => exact huri c (by rw [hcons]; exact List.mem_cons_self)
  have hword : ∀ c ∈ ascii "GET", isBlank c = false :=
    forall_mem_of_all (by with_unfolding_all decide)
  rw [hline, splitRuns_append_sep hword (by decide) hstart, List.getElem?_cons_succ,
    ← List.head?_eq_getElem?]
  exact head?_splitRuns_append huri (by decide)

theorem parseRequest_text : ∃ req, parseRequest r.text = some req ∧ req.uri = r.uri := by
  have hhead : (splitRuns isLineEnd r.text).headD [] = r.firstLine := by
    have hsplit : r.text = r.firstLine ++
        13 :: (10 :: (r.headers.flatMap (fun h => h.text ++ crlf) ++ crlf)) := by
      simp [text, crlf]
    rw [List.headD_eq_head?_getD, hsplit, head?_splitRuns_append firstLine_clean (by decide)]
    rfl
  refine ⟨⟨r.uri, (splitRuns isLineEnd r.text).tail.foldl parseHeaderLine fun _ => none⟩, ?_, rfl⟩
  simp only [parseRequest, hhead, splitRuns_firstLine]

end RequestText

end Courses.HttpServer

/-!
# What a request head asks for

A head is a start line and further lines, each ended by a carriage return or a line feed.
A line with a colon asks that its value be stored as it is, under its name in lower case;
of two lines with one name the later counts. `ParseRequest` turns the whole line to lower
case and takes only lines that have a single colon, and it reads the second word of the
start line whether there is one or not.
-/
namespace Courses.HttpServer

open Lib

/-! ### Lines -/

def startLine (head : List UInt8) : List UInt8 := head.takeWhile fun c => !isLineEnd c

def furtherLines (head : List UInt8) : List (List UInt8) :=
  (head.dropWhile fun c => !isLineEnd c).splitOnP isLineEnd

/-- A line `METHOD URI VERSION`, the words with blanks between them. -/
structure RequestLine where
  method : List UInt8
  uri : List UInt8
  version : List UInt8
  gap : List UInt8
  gap' : List UInt8
  words : ∀ word ∈ [method, uri, version], word ≠ [] ∧ ∀ c ∈ word, isBlank c = false
  blanks : ∀ run ∈ [gap, gap'], run ≠ [] ∧ ∀ c ∈ run, isBlank c = true

def RequestLine.text (l : RequestLine) : List UInt8 :=
  l.method ++ (l.gap ++ (l.uri ++ (l.gap' ++ l.version)))

/-- What stands before the first colon. -/
def fieldName (line : List UInt8) : List UInt8 := line.takeWhile (· ≠ 58)

/-- What stands behind it. -/
def fieldValue (line : List UInt8) : List UInt8 := (line.dropWhile (· ≠ 58)).tail

/-- The entry that a line `name: value` asks for. -/
def headerEntry (line : List UInt8) : Option (List UInt8 × List UInt8) :=
  if 58 ∈ line then some ((trim (fieldName line)).map tolower, trim (fieldValue line)) else none

def expectedHeaders (head : List UInt8) : List UInt8 → Option (List UInt8) :=
  Entries.enterAll ((furtherLines head).filterMap headerEntry) fun _ => none

/-- A request that holds what the head says. -/
structure ParsedAs (head : List UInt8) (req : HttpRequest) : Prop where
  uri : ∀ l : RequestLine, startLine head = l.text → req.uri = l.uri
  headers : req.headers = expectedHeaders head

/-- The head is parsed without an index out of range, to a request that holds what it says. -/
def ParsedRight (head : List UInt8) : Prop :=
  ∃ req, parseRequest head = some req ∧ ParsedAs head req

/-- The value of every line that is the last of its name has no colon and, trimmed, no capital
letter. -/
def PlainValues (head : List UInt8) : Prop :=
  ∀ before line after entry, furtherLines head = before ++ line :: after →
    headerEntry line = some entry →
    (∀ later ∈ after, ∀ e, headerEntry later = some e → e.1 ≠ entry.1) →
    58 ∉ fieldValue line ∧ IsLower (trim (fieldValue line))

/-! ### The start line -/

theorem startLine_eq (head : List UInt8) : (splitRuns isLineEnd head).headD [] = startLine head :=
  headD_splitRuns head

/-- The second word is there when a blank is. -/
theorem parseRequest_ne_none_iff {head : List UInt8} :
    parseRequest head ≠ none ↔ ∃ c ∈ startLine head, isBlank c = true := by
  rw [← one_lt_length_splitRuns_iff, parseRequest, startLine_eq]
  cases hword : (splitRuns isBlank (startLine head))[1]? with
  | none => simp [List.getElem?_eq_none_iff.1 hword]
  | some uri => simp [(List.getElem?_eq_some_iff.1 hword).1]

/-- The second word of a request line is its URI. -/
theorem splitRuns_requestLine (l : RequestLine) : (splitRuns isBlank l.text)[1]? = some l.uri := by
  obtain ⟨-, hmethod⟩ := l.words l.method (by simp)
  obtain ⟨huri, huri'⟩ := l.words l.uri (by simp)
  obtain ⟨hversion, hversion'⟩ := l.words l.version (by simp)
  obtain ⟨hgap, hrun⟩ := l.blanks l.gap (by simp)
  obtain ⟨hgap', hrun'⟩ := l.blanks l.gap' (by simp)
  have hstart {word : List UInt8} (hne : word ≠ []) (hclean : ∀ c ∈ word, isBlank c = false)
      (rest : List UInt8) : startsWithSep isBlank (word ++ rest) = false := by
    cases word with
    | nil => exact absurd rfl hne
    | cons c word => exact hclean c List.mem_cons_self
  have hlast : startsWithSep isBlank l.version = false := by
    have h := hstart hversion hversion' []
    rwa [List.append_nil] at h
  rw [RequestLine.text, splitRuns_append_run hmethod hgap hrun (hstart huri huri' _),
    splitRuns_append_run huri' hgap' hrun' hlast]
  rfl

/-! ### One header line -/

/-- The entry that the loop of `ParseRequest` makes of a line. -/
def takeEntry (line : List UInt8) : Option (List UInt8 × List UInt8) :=
  match (line.map tolower).splitOn 58 with
  | [name, value] => some (trim name, trim value)
  | _ => none

theorem parseHeaderLine_eq (headers : List UInt8 → Option (List UInt8)) (line : List UInt8) :
    parseHeaderLine headers line =
      match takeEntry line with
      | some entry => Entries.enter headers entry
      | none => headers := by
  unfold parseHeaderLine takeEntry
  generalize (line.map tolower).splitOn 58 = pieces
  match pieces with
  | [] => rfl
  | [_] => rfl
  | [_, _] => rfl
  | _ :: _ :: _ :: _ => rfl

theorem foldl_parseHeaderLine (lines : List (List UInt8))
    (headers : List UInt8 → Option (List UInt8)) :
    lines.foldl parseHeaderLine headers = Entries.enterAll (lines.filterMap takeEntry) headers := by
  induction lines generalizing headers with
  | nil => rfl
  | cons line lines ih =>
    rw [List.foldl_cons, parseHeaderLine_eq]
    cases htake : takeEntry line with
    | none =>
      rw [List.filterMap_cons_none htake]
      exact ih headers
    | some entry =>
      rw [List.filterMap_cons_some htake]
      exact ih _

theorem tolower_cases (c : UInt8) : ∀ n < 256, c = UInt8.ofNat n →
    (tolower c = 58 ↔ c = 58) ∧ isSpace (tolower c) = isSpace c := by
  rintro n hn rfl
  revert n
  decide +kernel

theorem tolower_eq_colon (c : UInt8) : tolower c = 58 ↔ c = 58 :=
  (tolower_cases c c.toNat c.toNat_lt UInt8.ofNat_toNat.symm).1

theorem isSpace_tolower (c : UInt8) : isSpace (tolower c) = isSpace c :=
  (tolower_cases c c.toNat c.toNat_lt UInt8.ofNat_toNat.symm).2

theorem trim_map_tolower (s : List UInt8) : trim (s.map tolower) = (trim s).map tolower := by
  have hspace : isSpace ∘ tolower = isSpace := funext isSpace_tolower
  rw [trim, trim, List.rdropWhile, List.rdropWhile, List.dropWhile_map, hspace, ← List.map_reverse,
    List.dropWhile_map, hspace, List.map_reverse]

theorem colon_not_mem_map {s : List UInt8} : 58 ∉ s.map tolower ↔ 58 ∉ s := by
  simp [List.mem_map, tolower_eq_colon]

theorem mem_dropWhile {c : UInt8} {s : List UInt8} (h : c ∈ s) (hc : isSpace c = false) :
    c ∈ s.dropWhile isSpace := by
  rw [← List.takeWhile_append_dropWhile (p := isSpace) (l := s), List.mem_append] at h
  obtain hspace | hrest := h
  · have := List.mem_takeWhile_imp hspace
    simp [hc] at this
  · exact hrest

theorem colon_mem_trim {s : List UInt8} (h : 58 ∈ s) : 58 ∈ trim s := by
  have hcolon : isSpace 58 = false := by decide
  have hback := mem_dropWhile (List.mem_reverse.2 (mem_dropWhile h hcolon)) hcolon
  exact List.mem_reverse.2 hback

theorem colon_not_mem_fieldName (line : List UInt8) : 58 ∉ fieldName line := by
  intro hmem
  have := List.mem_takeWhile_imp hmem
  simp at this

/-- A line with a colon is its name, the colon and its value. -/
theorem eq_fieldName_append {line : List UInt8} (h : 58 ∈ line) :
    line = fieldName line ++ 58 :: fieldValue line := by
  induction line with
  | nil => cases h
  | cons c line ih =>
    by_cases hc : c = 58
    · subst hc
      rfl
    · have hline : 58 ∈ line := by
        obtain heq | hline := List.mem_cons.1 h
        · exact absurd heq.symm hc
        · exact hline
      have hname : fieldName (c :: line) = c :: fieldName line := by simp [fieldName, hc]
      have hvalue : fieldValue (c :: line) = fieldValue line := by simp [fieldValue, hc]
      rw [hname, hvalue, List.cons_append, ← ih hline]

/-- The lower-case line splits in two when its first colon is its only one. -/
theorem takeEntry_eq (line : List UInt8) :
    takeEntry line =
      if 58 ∈ line ∧ 58 ∉ fieldValue line then
        some ((trim (fieldName line)).map tolower, (trim (fieldValue line)).map tolower)
      else
        none := by
  by_cases hline : 58 ∈ line
  · have hname := colon_not_mem_map.2 (colon_not_mem_fieldName line)
    have hsplit : (line.map tolower).splitOn 58 =
        (fieldName line).map tolower :: ((fieldValue line).map tolower).splitOn 58 := by
      have hcolon : tolower 58 = 58 := by decide
      conv_lhs => rw [eq_fieldName_append hline]
      rw [List.map_append, List.map_cons, hcolon]
      exact List.splitOn_append_cons_self_of_not_mem hname _
    by_cases hvalue : 58 ∈ fieldValue line
    · rw [if_neg fun h => h.2 hvalue, takeEntry, hsplit]
      -- a second colon makes three pieces or more
      have hsecond : 58 ∈ (fieldValue line).map tolower := by
        by_contra hnot
        exact colon_not_mem_map.1 hnot hvalue
      obtain ⟨left, right, hpieces⟩ := List.append_of_mem hsecond
      rw [hpieces, List.splitOn_append_cons_self]
      cases hleft : left.splitOn 58 with
      | nil => exact absurd hleft (List.splitOn_ne_nil 58 left)
      | cons first pieces =>
        cases hright : right.splitOn 58 with
        | nil => exact absurd hright (List.splitOn_ne_nil 58 right)
        | cons second more => cases pieces <;> rfl
    · rw [if_pos ⟨hline, hvalue⟩, takeEntry, hsplit,
        List.splitOn_eq_singleton (colon_not_mem_map.2 hvalue)]
      simp only [trim_map_tolower]
  · rw [if_neg fun h => hline h.1, takeEntry, List.splitOn_eq_singleton (colon_not_mem_map.2 hline)]

/-! ### The whole head -/

/-- The lines that matter are the same whether empty ones between them are dropped or not. -/
theorem filterMap_tail_splitRuns (head : List UInt8) :
    (splitRuns isLineEnd head).tail.filterMap takeEntry =
      (furtherLines head).filterMap takeEntry := by
  have hempty : takeEntry [] = none := rfl
  have hstart : ∀ c ∈ startLine head, isLineEnd c = false := by
    intro c hc
    simpa using List.mem_takeWhile_imp hc
  have hsplit : startLine head ++ (head.dropWhile fun c => !isLineEnd c) = head :=
    List.takeWhile_append_dropWhile
  rw [furtherLines]
  cases hrest : head.dropWhile fun c => !isLineEnd c with
  | nil =>
    rw [hrest, List.append_nil] at hsplit
    rw [← hsplit, splitRuns_of_clean hstart]
    rfl
  | cons a rest =>
    have ha : isLineEnd a = true := by
      have := List.head_dropWhile_not (fun c => !isLineEnd c) (l := head) (by simp [hrest])
      simpa [hrest] using this
    rw [hrest] at hsplit
    rw [← hsplit, splitRuns_append hstart, ← filterMap_splitRuns hempty]
    -- the first piece of what is left is empty
    cases hpieces : splitRuns isLineEnd (a :: rest) with
    | nil => rfl
    | cons first pieces =>
      have hfirst : (splitRuns isLineEnd (a :: rest)).head? = some [] := head?_splitRuns_sep ha
      rw [hpieces, List.head?_cons, Option.some.injEq] at hfirst
      rw [hfirst, List.filterMap_cons_none hempty]
      rfl

theorem parseRequest_headers {head : List UInt8} {req : HttpRequest}
    (h : parseRequest head = some req) :
    req.headers = Entries.enterAll ((furtherLines head).filterMap takeEntry) fun _ => none := by
  simp only [parseRequest] at h
  split at h
  · cases h
  · cases h
    rw [← filterMap_tail_splitRuns]
    exact foldl_parseHeaderLine _ _

theorem parseRequest_uri {head : List UInt8} {req : HttpRequest} (h : parseRequest head = some req)
    (l : RequestLine) (hl : startLine head = l.text) : req.uri = l.uri := by
  simp only [parseRequest, startLine_eq, hl, splitRuns_requestLine] at h
  cases h
  rfl

/-- What is stored for a line is what it asks for, exactly when its value is plain. -/
theorem takeEntry_eq_headerEntry_iff {line : List UInt8} {entry : List UInt8 × List UInt8}
    (h : headerEntry line = some entry) :
    takeEntry line = some entry ↔ 58 ∉ fieldValue line ∧ IsLower (trim (fieldValue line)) := by
  have hlower (s : List UInt8) : s.map tolower = s ↔ IsLower s := by
    have h := @List.map_inj_left _ _ s tolower id
    rwa [List.map_id] at h
  unfold headerEntry at h
  split at h
  · rename_i hline
    cases h
    rw [takeEntry_eq]
    by_cases hvalue : 58 ∈ fieldValue line
    · simp [hvalue]
    · simp [hline, hvalue, hlower]
  · cases h

theorem headers_eq_expected_iff (head : List UInt8) :
    Entries.enterAll ((furtherLines head).filterMap takeEntry) (fun _ => none) =
      expectedHeaders head ↔ PlainValues head := by
  have hkey (line : List UInt8) (e : List UInt8 × List UInt8) (h : takeEntry line = some e) :
      ∃ v, headerEntry line = some (e.1, v) := by
    rw [takeEntry_eq] at h
    split at h
    · rename_i hline
      cases h
      exact ⟨_, if_pos hline.1⟩
    · cases h
  -- a value with a colon is never stored, not even under its name from an earlier line
  have hnever (line : List UInt8) (e : List UInt8 × List UInt8) (hnone : takeEntry line = none)
      (hspec : headerEntry line = some e) (line' : List UInt8) (e' : List UInt8 × List UInt8)
      (htake : takeEntry line' = some e') : e'.2 ≠ e.2 := by
    have hcolon : 58 ∈ e.2 := by
      unfold headerEntry at hspec
      split at hspec
      · rename_i hline
        cases hspec
        apply colon_mem_trim
        by_contra hvalue
        rw [takeEntry_eq, if_pos ⟨hline, hvalue⟩] at hnone
        cases hnone
      · cases hspec
    have hplain : 58 ∉ e'.2 := by
      rw [takeEntry_eq] at htake
      split at htake
      · rename_i hline'
        cases htake
        rw [colon_not_mem_map]
        intro hmem
        have hdrop := (List.rdropWhile_prefix isSpace _).subset hmem
        exact hline'.2 ((List.dropWhile_suffix isSpace).subset hdrop)
      · cases htake
    intro heq
    exact hplain (heq ▸ hcolon)
  rw [expectedHeaders, Entries.enterAll_filterMap_eq_iff hkey hnever, PlainValues]
  constructor
  · intro h before line after entry hlines hspec hlast
    exact (takeEntry_eq_headerEntry_iff hspec).1 (h before line after entry hlines hspec hlast)
  · intro h before line after entry hlines hspec hlast
    exact (takeEntry_eq_headerEntry_iff hspec).2 (h before line after entry hlines hspec hlast)

/-- Heads are parsed right exactly when their start line has a blank in it and the values that
count are plain. -/
theorem parsedRight_iff (head : List UInt8) :
    ParsedRight head ↔ (∃ c ∈ startLine head, isBlank c = true) ∧ PlainValues head := by
  rw [← parseRequest_ne_none_iff, ← headers_eq_expected_iff, Option.ne_none_iff_exists']
  constructor
  · rintro ⟨req, hreq, hparsed⟩
    exact ⟨⟨req, hreq⟩, (parseRequest_headers hreq).symm.trans hparsed.headers⟩
  · rintro ⟨⟨req, hreq⟩, hheaders⟩
    exact ⟨req, hreq, parseRequest_uri hreq, (parseRequest_headers hreq).trans hheaders⟩

/-- A request to a port other than the usual one: the value of its `Host` line is lost. -/
theorem not_parsedRight_host :
    ¬ ParsedRight (ascii "GET / HTTP/1.1\r\nHost: localhost:5555\r\n\r\n") := by
  rintro ⟨req, hreq, hparsed⟩
  have hheaders := hparsed.headers
  rw [parseRequest_headers hreq] at hheaders
  have hhost := congrFun hheaders (ascii "host")
  revert hhost
  with_unfolding_all decide

end Courses.HttpServer
