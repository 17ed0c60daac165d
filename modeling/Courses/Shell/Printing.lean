import Courses.Shell.Grammar

/-!
# Commands in print

A command is printed as its tokens with a space between any two. A simple command shows its words
first and then its redirections, the innermost one before the others, so that the parser wraps
them around the command in the same order.
-/
namespace Courses.Shell

open Sh

/-! ## Printed tokens -/

/-- The characters of a word, at least one. -/
def Word (w : Text) : Prop := w ≠ [] ∧ ∀ c ∈ w, inWord c = true ∧ c ≠ nul

def Tok.text : Tok → Text
  | .sym c => [c]
  | .word w => w

/-- A token that the parser can find in a line. -/
def Tok.Valid : Tok → Prop
  | .sym c => Sh.symbols.contains c = true
  | .word w => Word w

def render (ts : List Tok) : Text := [' '].intercalate (ts.map Tok.text)

variable {t : Tok} {ts : List Tok} {s : Text} {c : Char} {cmd : Cmd}

theorem not_whitespace_of_symbol (h : Sh.symbols.contains c = true) :
    Sh.whitespace.contains c = false := by
  obtain (rfl | rfl | rfl) | rfl := symbols_iff.1 h <;> decide

theorem not_symbol_of_inWord (h : inWord c = true) :
    Sh.whitespace.contains c = false ∧ Sh.symbols.contains c = false := by
  simpa only [inWord, Bool.and_eq_true, Bool.not_eq_true'] using h

theorem skip_cons (h : Sh.whitespace.contains c = false) : skip (c :: s) = c :: s :=
  List.dropWhile_cons_of_neg (by simpa using h)

theorem tokens_space (s : Text) : tokens (' ' :: s) = tokens s := by
  rw [← tokens_skip (' ' :: s), ← tokens_skip s]
  rfl

/-- Behind a token comes a space, or nothing. -/
theorem tokens_text_append (ht : t.Valid) (hs : s = [] ∨ ∃ s', s = ' ' :: s') :
    tokens (t.text ++ s) = t :: tokens s := by
  cases t with
  | sym c =>
    have hskip := skip_cons (s := s) (not_whitespace_of_symbol ht)
    exact tokens_of_symbol hskip ht
  | word w =>
    obtain ⟨hne, hword⟩ := ht
    cases w with
    | nil => exact absurd rfl hne
    | cons c w =>
      obtain ⟨hspace, hsymbol⟩ := not_symbol_of_inWord (hword c List.mem_cons_self).1
      have htake : ((c :: w) ++ s).takeWhile inWord = c :: w := by
        rw [List.takeWhile_append_of_pos fun d hd => (hword d hd).1]
        obtain rfl | ⟨s', rfl⟩ := hs
        · simp
        · simp [inWord, Sh.whitespace]
      have hdrop : ((c :: w) ++ s).dropWhile inWord = s := by
        rw [List.dropWhile_append_of_pos fun d hd => (hword d hd).1]
        obtain rfl | ⟨s', rfl⟩ := hs
        · simp
        · simp [inWord, Sh.whitespace]
      have htokens := tokens_of_word (skip_cons (s := w ++ s) hspace) hsymbol
      rw [← List.cons_append, htake, hdrop] at htokens
      exact htokens

theorem render_cons_cons (t u : Tok) (ts : List Tok) :
    render (t :: u :: ts) = t.text ++ ' ' :: render (u :: ts) := by
  simp [render, List.intercalate]

theorem tokens_render (h : ∀ t ∈ ts, t.Valid) : tokens (render ts) = ts := by
  induction ts with
  | nil => exact tokens_of_nil rfl
  | cons t ts ih =>
    have ht := h t List.mem_cons_self
    cases ts with
    | nil =>
      have hone : render [t] = t.text ++ [] := by simp [render, List.intercalate]
      rw [hone, tokens_text_append ht (.inl rfl), tokens_of_nil rfl]
    | cons u ts =>
      rw [render_cons_cons, tokens_text_append ht (.inr ⟨_, rfl⟩), tokens_space,
        ih fun t ht => h t (List.mem_cons_of_mem _ ht)]

theorem Tok.Valid.ne_nul (ht : t.Valid) : ∀ c ∈ t.text, c ≠ nul := by
  intro c hc
  cases t with
  | sym d =>
    have hd : Sh.symbols.contains d = true := ht
    rw [Tok.text, List.mem_singleton] at hc
    rintro rfl
    rw [← hc] at hd
    revert hd
    decide
  | word w => exact (ht.2 c hc).2

theorem render_ne_nul (h : ∀ t ∈ ts, t.Valid) : ∀ c ∈ render ts, c ≠ nul := by
  induction ts with
  | nil =>
    intro c hc
    cases hc
  | cons t ts ih =>
    have ht := (h t List.mem_cons_self).ne_nul
    cases ts with
    | nil => simpa [render, List.intercalate] using ht
    | cons u ts =>
      intro c hc
      rw [render_cons_cons, List.mem_append, List.mem_cons] at hc
      obtain hc | rfl | hc := hc
      · exact ht c hc
      · decide
      · exact ih (fun t ht => h t (List.mem_cons_of_mem _ ht)) c hc

/-! ## Command trees -/

/-- At most 9 words, in redirections. -/
inductive ExecShaped : Cmd → Prop
  | exec (args : List Text) : args.length ≤ 9 → (∀ w ∈ args, Word w) →
    ExecShaped (.execcmd (filled args))
  | redir (cmd : Cmd) (file : Text) (type : Char) : ExecShaped cmd → Word file →
    type = '<' ∨ type = '>' → ExecShaped (redircmd cmd file type)

inductive PipeShaped : Cmd → Prop
  | exec (cmd : Cmd) : ExecShaped cmd → PipeShaped cmd
  | pipe (left right : Cmd) : ExecShaped left → PipeShaped right →
    PipeShaped (.pipecmd left right)

inductive LineShaped : Cmd → Prop
  | pipe (cmd : Cmd) : PipeShaped cmd → LineShaped cmd
  | line (left right : Cmd) : PipeShaped left → LineShaped right →
    LineShaped (.commandcmd left right)

namespace Sh.Cmd

/-- The tokens that a command is printed as. -/
def print : Cmd → List Tok
  | .execcmd argv => (argsOf argv).map .word
  | .redircmd type cmd file _ _ => cmd.print ++ [.sym type, .word file]
  | .pipecmd left right => left.print ++ .sym '|' :: right.print
  | .commandcmd left right => left.print ++ .sym ';' :: right.print

end Sh.Cmd

theorem print_redircmd (cmd : Cmd) (file : Text) (type : Char) :
    (redircmd cmd file type).print = cmd.print ++ [.sym type, .word file] := rfl

theorem ExecShaped.valid (h : ExecShaped cmd) : ∀ t ∈ cmd.print, t.Valid := by
  induction h with
  | exec args hfew hwords =>
    intro t ht
    rw [Cmd.print, argsOf_filled (Nat.lt_succ_of_le hfew), List.mem_map] at ht
    obtain ⟨w, hw, rfl⟩ := ht
    exact hwords w hw
  | redir cmd file type _ hfile htype ih =>
    intro t ht
    rw [print_redircmd, List.mem_append, List.mem_pair] at ht
    obtain ht | rfl | rfl := ht
    · exact ih t ht
    · show Sh.symbols.contains type = true
      obtain rfl | rfl := htype <;> decide
    · exact hfile

theorem valid_joined {left right : List Tok} (hleft : ∀ t ∈ left, t.Valid)
    (hright : ∀ t ∈ right, t.Valid) (hc : Sh.symbols.contains c = true) :
    ∀ t ∈ left ++ .sym c :: right, t.Valid := by
  intro t ht
  rw [List.mem_append, List.mem_cons] at ht
  obtain ht | rfl | ht := ht
  · exact hleft t ht
  · exact hc
  · exact hright t ht

theorem PipeShaped.valid (h : PipeShaped cmd) : ∀ t ∈ cmd.print, t.Valid := by
  induction h with
  | exec cmd h => exact h.valid
  | pipe left right h _ ih => exact valid_joined h.valid ih (by decide)

theorem LineShaped.valid (h : LineShaped cmd) : ∀ t ∈ cmd.print, t.Valid := by
  induction h with
  | pipe cmd h => exact h.valid
  | line left right h _ ih => exact valid_joined h.valid ih (by decide)

/-! ## The phrase that is printed -/

theorem ExecShaped.wrapped (h : ExecShaped cmd) :
    ∃ (rs : List Redir) (args : List Text), args.length ≤ 9 ∧
      cmd = wrap rs (.execcmd (filled args)) ∧
      cmd.print = args.map .word ++ rs.flatMap Redir.tokens := by
  induction h with
  | exec args hfew hwords =>
    refine ⟨[], args, hfew, rfl, ?_⟩
    rw [Cmd.print, argsOf_filled (Nat.lt_succ_of_le hfew)]
    simp
  | redir cmd file type _ _ htype ih =>
    obtain ⟨rs, args, hfew, hcmd, hprint⟩ := ih
    refine ⟨rs ++ [⟨type, file, htype⟩], args, hfew, ?_, ?_⟩
    · rw [wrap_append, ← hcmd]
      rfl
    · rw [print_redircmd, hprint]
      simp [Redir.tokens]

theorem argTokens_append (args args' : List (Text × List Redir)) :
    argTokens (args ++ args') = argTokens args ++ argTokens args' := by simp [argTokens]

theorem argTokens_bare (args : List Text) :
    argTokens (args.map fun w => (w, [])) = args.map .word := by
  induction args with
  | nil => rfl
  | cons w args ih =>
    rw [List.map_cons, List.map_cons, ← ih]
    rfl

theorem ExecShaped.phrase (h : ExecShaped cmd) :
    ∃ e : ExecPhrase, e.cmd = cmd ∧ e.tokens = cmd.print := by
  obtain ⟨rs, args, hfew, hcmd, hprint⟩ := h.wrapped
  -- the redirections stand behind the last word
  cases args using List.reverseRecOn with
  | nil =>
    refine ⟨⟨rs, [], Nat.zero_le _⟩, ?_, ?_⟩
    · simp [ExecPhrase.cmd, hcmd]
    · simp [ExecPhrase.tokens, argTokens, hprint]
  | append_singleton args w =>
    refine ⟨⟨[], args.map (fun w => (w, [])) ++ [(w, rs)], by simpa using hfew⟩, ?_, ?_⟩
    · have hbare : args.flatMap (fun _ => ([] : List Redir)) = [] :=
        List.flatMap_eq_nil_iff.2 fun _ _ => rfl
      rw [hcmd, ExecPhrase.cmd]
      simp [List.flatMap_map, Function.comp_def, hbare]
    · rw [hprint, ExecPhrase.tokens, argTokens_append, argTokens_bare]
      simp [argTokens]

theorem PipeShaped.phrase (h : PipeShaped cmd) :
    ∃ p : PipePhrase, p.cmd = cmd ∧ p.tokens = cmd.print := by
  induction h with
  | exec cmd h =>
    obtain ⟨e, hcmd, htokens⟩ := h.phrase
    exact ⟨.exec e, hcmd, htokens⟩
  | pipe left right h _ ih =>
    obtain ⟨e, rfl, htokens⟩ := h.phrase
    obtain ⟨p, rfl, htokens'⟩ := ih
    refine ⟨.pipe e p, rfl, ?_⟩
    rw [PipePhrase.tokens, htokens, htokens']
    rfl

theorem LineShaped.phrase (h : LineShaped cmd) :
    ∃ l : LinePhrase, l.cmd = cmd ∧ l.tokens = cmd.print := by
  induction h with
  | pipe cmd h =>
    obtain ⟨p, hcmd, htokens⟩ := h.phrase
    exact ⟨.pipe p, hcmd, htokens⟩
  | line left right h _ ih =>
    obtain ⟨p, rfl, htokens⟩ := h.phrase
    obtain ⟨l, rfl, htokens'⟩ := ih
    refine ⟨.line p l, rfl, ?_⟩
    rw [LinePhrase.tokens, htokens, htokens']
    rfl

end Courses.Shell
