import Courses.HttpServer.Connection
import Courses.Lib.Entries

/-!
# A URL parser that is used again

`URLParser::Parse` replaces the path and adds to the map of arguments. What an earlier URL
has left in that map is seen again wherever the new URL does not set the field itself.
-/
namespace Courses.HttpServer

open Lib

/-- The `field=val` chunks of a URL. -/
def chunks (url : List UInt8) : List (List UInt8) :=
  match url.splitOn 63 with
  | _ :: args :: _ => args.splitOn 38
  | _ => []

/-- The field and the value that a chunk sets. -/
def setting (chunk : List UInt8) : Option (List UInt8 × List UInt8) :=
  match chunk.splitOn 61 with
  | [field, value] => do
    let field ← uriDecode field
    let value ← uriDecode value
    return (field, value)
  | _ => none

def settings (url : List UInt8) : List (List UInt8 × List UInt8) := (chunks url).filterMap setting

/-- The fields that a URL sets. -/
def fields (url : List UInt8) : List (List UInt8) := (settings url).map Prod.fst

/-! ### One call -/

theorem setting_of_pair {chunk field value : List UInt8}
    (h : chunk.splitOn 61 = [field, value]) :
    setting chunk = (uriDecode field).bind fun f => (uriDecode value).map fun v => (f, v) := by
  cases hf : uriDecode field with
  | none => simp [setting, h, hf]
  | some f => cases hv : uriDecode value <;> simp [setting, h, hf, hv]

theorem setting_of_not_pair {chunk : List UInt8}
    (h : ∀ field value, chunk.splitOn 61 ≠ [field, value]) : setting chunk = none := by
  unfold setting
  split
  · rename_i hpair
    exact absurd hpair (h _ _)
  · rfl

/-- A chunk that lets the loop go on enters its setting, or is skipped. -/
theorem parseArgs_cons {val : List UInt8} {vals : List (List UInt8)} {parser parser' : URLParser}
    (h : parseArgs (val :: vals) parser = some parser') :
    (∃ entry, setting val = some entry ∧ ∀ other : URLParser, parseArgs (val :: vals) other =
      parseArgs vals { other with args := Entries.enter other.args entry }) ∨
    (setting val = none ∧ ∀ other, parseArgs (val :: vals) other = parseArgs vals other) := by
  simp only [parseArgs] at h ⊢
  split at h
  · rename_i field value hpair
    simp only [Option.bind_eq_bind, Option.bind_eq_some_iff] at h
    obtain ⟨f, hf, v, hv, -⟩ := h
    refine .inl ⟨(f, v), ?_, fun other => ?_⟩
    · simp [setting_of_pair hpair, hf, hv]
    · simp only [hf, hv, Option.bind_eq_bind, Option.bind_some]
      rfl
  · rename_i hnot
    exact .inr ⟨setting_of_not_pair hnot, fun _ => rfl⟩

/-- The loop over the chunks enters their settings, if it comes to its end. -/
theorem parseArgs_eq {vals : List (List UInt8)} {parser parser' : URLParser}
    (h : parseArgs vals parser = some parser') :
    parser' = { parser with args := Entries.enterAll (vals.filterMap setting) parser.args } := by
  induction vals generalizing parser with
  | nil => exact (Option.some.inj h).symm
  | cons val vals ih =>
    obtain ⟨entry, hset, hloop⟩ | ⟨hset, hloop⟩ := parseArgs_cons h
    · rw [hloop] at h
      rw [List.filterMap_cons_some hset]
      exact ih h
    · rw [hloop] at h
      rw [List.filterMap_cons_none hset]
      exact ih h

/-- Whether the loop ends depends on the chunks alone. -/
theorem parseArgs_returns {vals : List (List UInt8)} {parser parser' : URLParser}
    (h : parseArgs vals parser = some parser') (other : URLParser) :
    ∃ other', parseArgs vals other = some other' := by
  induction vals generalizing parser other with
  | nil => exact ⟨other, rfl⟩
  | cons val vals ih =>
    obtain ⟨entry, -, hloop⟩ | ⟨-, hloop⟩ := parseArgs_cons h
    · rw [hloop] at h ⊢
      exact ih h _
    · rw [hloop] at h ⊢
      exact ih h other

/-- The path that a URL has. -/
def decodedPath (url : List UInt8) : Option (List UInt8) := uriDecode ((url.splitOn 63).headD [])

namespace URLParser

variable {parser parser' : URLParser} {url : List UInt8}

/-- A call that returns puts the URL's path in place of the old one, and enters its settings
into the old map. -/
theorem parse_eq (h : parser.parse url = some parser') :
    decodedPath url = some parser'.path ∧
      parser'.args = Entries.enterAll (settings url) parser.args := by
  unfold parse at h
  unfold decodedPath settings chunks
  split at h
  · rename_i hnil
    exact absurd hnil (List.splitOn_ne_nil 63 url)
  · rename_i path hone
    simp only [Option.bind_eq_bind, Option.bind_eq_some_iff] at h
    obtain ⟨decoded, hpath, h⟩ := h
    cases h
    rw [hone]
    exact ⟨hpath, rfl⟩
  · rename_i path args rest htwo
    simp only [Option.bind_eq_bind, Option.bind_eq_some_iff] at h
    obtain ⟨decoded, hpath, h⟩ := h
    split at h
    · cases h
    · rw [htwo, parseArgs_eq h]
      exact ⟨hpath, rfl⟩

theorem parse_returns (h : parser.parse url = some parser') (other : URLParser) :
    ∃ other', other.parse url = some other' := by
  unfold parse at h ⊢
  split at h
  · exact ⟨_, rfl⟩
  · simp only [Option.bind_eq_bind, Option.bind_eq_some_iff] at h ⊢
    obtain ⟨decoded, hpath, -⟩ := h
    exact ⟨_, decoded, hpath, rfl⟩
  · simp only [Option.bind_eq_bind, Option.bind_eq_some_iff] at h ⊢
    obtain ⟨decoded, hpath, h⟩ := h
    split at h
    · cases h
    · rename_i hlen
      obtain ⟨other', hother⟩ := parseArgs_returns h { other with url := url, path := decoded }
      refine ⟨other', decoded, hpath, ?_⟩
      rw [if_neg hlen]
      exact hother

/-! ### All calls -/

/-- The parser after a sequence of calls on a new one. -/
def afterParses (history : List (List UInt8)) : Option URLParser := history.foldlM parse empty

/-- The map holds the fields that some earlier URL has set. -/
theorem args_foldlM {history : List (List UInt8)} (h : history.foldlM parse parser = some parser')
    (field : List UInt8) :
    parser'.args field ≠ none ↔
      (∃ earlier ∈ history, field ∈ fields earlier) ∨ parser.args field ≠ none := by
  induction history generalizing parser with
  | nil =>
    cases h
    simp
  | cons earlier history ih =>
    rw [List.foldlM_cons, Option.bind_eq_bind, Option.bind_eq_some_iff] at h
    obtain ⟨next, hnext, h⟩ := h
    have hargs : next.args field ≠ none ↔ field ∈ fields earlier ∨ parser.args field ≠ none := by
      rw [(parse_eq hnext).2]
      exact Entries.enterAll_ne_none_iff
    rw [ih h, hargs, ← or_assoc]
    refine or_congr_left ?_
    simp only [List.mem_cons, exists_eq_or_imp]
    exact or_comm

/-- A parser with a history gives the same as a new one exactly when the URL itself sets every
field that an earlier one has set. -/
theorem parse_eq_empty_iff {history : List (List UInt8)}
    (hhistory : afterParses history = some parser)
    {fresh : URLParser} (hfresh : empty.parse url = some fresh) :
    ∃ parser', parser.parse url = some parser' ∧
      ((parser'.path = fresh.path ∧ parser'.args = fresh.args) ↔
        ∀ earlier ∈ history, fields earlier ⊆ fields url) := by
  obtain ⟨parser', hparse⟩ := parse_returns hfresh parser
  refine ⟨parser', hparse, ?_⟩
  obtain ⟨hpath, hargs⟩ := parse_eq hparse
  obtain ⟨hpath', hargs'⟩ := parse_eq hfresh
  have hsame : parser'.path = fresh.path := Option.some.inj (hpath.symm.trans hpath')
  have hleft (field : List UInt8) :
      parser.args field ≠ none ↔ ∃ earlier ∈ history, field ∈ fields earlier := by
    rw [args_foldlM hhistory]
    simp [empty]
  have hkept : parser'.args = fresh.args ↔
      ∀ field, parser.args field ≠ none → field ∈ fields url := by
    rw [hargs, hargs']
    exact Entries.enterAll_eq_iff
  rw [and_iff_right hsame, hkept]
  constructor
  · intro h earlier hearlier field hfield
    exact h field ((hleft field).2 ⟨earlier, hearlier, hfield⟩)
  · intro h field hfield
    obtain ⟨earlier, hearlier, hset⟩ := (hleft field).1 hfield
    exact h earlier hearlier hset

/-- Two URLs of one page, the first with an argument. -/
theorem parse_eq_empty_iff_foo :
    ∃ parser fresh parser', afterParses [ascii "/foo?foo=bar"] = some parser ∧
      empty.parse (ascii "/foo") = some fresh ∧ parser.parse (ascii "/foo") = some parser' ∧
      ((parser'.path = fresh.path ∧ parser'.args = fresh.args) ↔
        ∀ earlier ∈ [ascii "/foo?foo=bar"], fields earlier ⊆ fields (ascii "/foo")) := by
  have hhistory : (afterParses [ascii "/foo?foo=bar"]).isSome = true := by with_unfolding_all decide
  have hfresh : (empty.parse (ascii "/foo")).isSome = true := by with_unfolding_all decide
  obtain ⟨parser, hparser⟩ := Option.isSome_iff_exists.1 hhistory
  obtain ⟨fresh, hfresh⟩ := Option.isSome_iff_exists.1 hfresh
  obtain ⟨parser', hparse⟩ := parse_eq_empty_iff hparser hfresh
  exact ⟨parser, fresh, parser', hparser, hfresh, hparse⟩

/-- The argument of the first URL is still there after the second. -/
theorem parse_keeps_foo :
    ∃ parser fresh parser', afterParses [ascii "/foo?foo=bar"] = some parser ∧
      empty.parse (ascii "/foo") = some fresh ∧ parser.parse (ascii "/foo") = some parser' ∧
      ¬ (parser'.path = fresh.path ∧ parser'.args = fresh.args) := by
  have hall : ((afterParses [ascii "/foo?foo=bar"]).bind fun parser =>
      (empty.parse (ascii "/foo")).bind fun fresh =>
        (parser.parse (ascii "/foo")).map fun parser' =>
          (parser'.args (ascii "foo"), fresh.args (ascii "foo"))) =
      some (some (ascii "bar"), none) := by
    with_unfolding_all decide
  simp only [Option.bind_eq_some_iff, Option.map_eq_some_iff, Prod.mk.injEq] at hall
  obtain ⟨parser, hparser, fresh, hfresh, parser', hparse, hargs, hnone⟩ := hall
  refine ⟨parser, fresh, parser', hparser, hfresh, hparse, ?_⟩
  rintro ⟨-, heq⟩
  rw [heq, hnone] at hargs
  cases hargs

end URLParser

end Courses.HttpServer
