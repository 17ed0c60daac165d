import Courses.Shell.Tokens

/-!
# The grammar of `sh.c`

A phrase of the grammar has the parts that its production names. It has tokens, and a command
that the parser makes of them. The parser makes a command of a line just if the tokens of the
line are a phrase.
-/
namespace Courses.Shell

open Courses.Lib.ListParser Sh

/-! ## Phrases -/

/-- `('<' | '>') word` -/
structure Redir where
  type : Char
  file : Text
  valid : type = '<' ∨ type = '>'

def Redir.tokens (r : Redir) : List Tok := [.sym r.type, .word r.file]

/-- `redir* (word redir*)*` with at most 9 words -/
structure ExecPhrase where
  pre : List Redir
  args : List (Text × List Redir)
  few : args.length ≤ 9

/-- `exec ['|' pipe]` -/
inductive PipePhrase
  | exec (e : ExecPhrase)
  | pipe (e : ExecPhrase) (p : PipePhrase)

/-- `pipe [';' line]` -/
inductive LinePhrase
  | pipe (p : PipePhrase)
  | line (p : PipePhrase) (l : LinePhrase)

def argTokens (args : List (Text × List Redir)) : List Tok :=
  args.flatMap fun a => .word a.1 :: a.2.flatMap Redir.tokens

def ExecPhrase.tokens (e : ExecPhrase) : List Tok :=
  e.pre.flatMap Redir.tokens ++ argTokens e.args

def PipePhrase.tokens : PipePhrase → List Tok
  | .exec e => e.tokens
  | .pipe e p => e.tokens ++ .sym '|' :: p.tokens

def LinePhrase.tokens : LinePhrase → List Tok
  | .pipe p => p.tokens
  | .line p l => p.tokens ++ .sym ';' :: l.tokens

/-- Redirections of a command, the last of them outermost. -/
def wrap (rs : List Redir) (cmd : Cmd) : Cmd :=
  rs.foldl (fun cmd r => redircmd cmd r.file r.type) cmd

def ExecPhrase.cmd (e : ExecPhrase) : Cmd :=
  wrap (e.pre ++ e.args.flatMap Prod.snd) (.execcmd (filled (e.args.map Prod.fst)))

def PipePhrase.cmd : PipePhrase → Cmd
  | .exec e => e.cmd
  | .pipe e p => .pipecmd e.cmd p.cmd

def LinePhrase.cmd : LinePhrase → Cmd
  | .pipe p => p.cmd
  | .line p l => .commandcmd p.cmd l.cmd

theorem wrap_cons (r : Redir) (rs : List Redir) (cmd : Cmd) :
    wrap (r :: rs) cmd = wrap rs (redircmd cmd r.file r.type) := rfl

theorem wrap_append (rs rs' : List Redir) (cmd : Cmd) :
    wrap (rs ++ rs') cmd = wrap rs' (wrap rs cmd) := List.foldl_append

theorem store_wrap (rs : List Redir) (argv : List (Option Text)) (argc : ℕ) (arg : Option Text) :
    (wrap rs (.execcmd argv)).store argc arg = wrap rs (.execcmd (argv.set argc arg)) := by
  induction rs using List.reverseRecOn with
  | nil => rfl
  | append_singleton rs r ih =>
    rw [wrap_append, wrap_append, ← ih]
    rfl

variable {s s' : Text} {ts : List Tok} {fuel : ℕ} {cmd c : Cmd} {rs : List Redir}
  {done : List Text} {args : List (Text × List Redir)}

/-- The first token is none of these symbols. -/
def NotNext (toks : List Char) (ts : List Tok) : Prop := ts.head?.any (Tok.isSym toks) = false

/-- The first token, if there is one, is one of these symbols. -/
def Stops (toks : List Char) (ts : List Tok) : Prop :=
  ts = [] ∨ ∃ c ts', ts = .sym c :: ts' ∧ c ∈ toks

theorem Stops.mono {toks toks' : List Char} (h : Stops toks ts) (hsub : toks ⊆ toks') :
    Stops toks' ts := by
  obtain hnil | ⟨c, ts', hts, hc⟩ := h
  · exact .inl hnil
  · exact .inr ⟨c, ts', hts, hsub hc⟩

theorem redirSymbols : ∀ c ∈ ['<', '>'], Sh.symbols.contains c = true := by simp [Sh.symbols]

theorem stopSymbols : ∀ c ∈ ['|', ';'], Sh.symbols.contains c = true := by simp [Sh.symbols]

theorem pipeSymbols : ∀ c ∈ ['|'], Sh.symbols.contains c = true := by simp [Sh.symbols]

theorem lineSymbols : ∀ c ∈ [';'], Sh.symbols.contains c = true := by simp [Sh.symbols]

theorem tokens_next {toks : List Char} (h : (tokens s).head?.any (Tok.isSym toks) = true) :
    ∃ c ts, tokens s = .sym c :: ts ∧ c ∈ toks := by
  cases hs : tokens s with
  | nil =>
    rw [hs] at h
    cases h
  | cons t ts =>
    rw [hs] at h
    cases t with
    | sym c => exact ⟨c, ts, rfl, List.contains_iff_mem.1 h⟩
    | word w => cases h

/-! ## Phrases are parsed -/

theorem parseredirs_complete (hs : tokens s = rs.flatMap Redir.tokens ++ ts)
    (hts : NotNext ['<', '>'] ts) (hfuel : s.length < fuel) (cmd : Cmd) :
    ∃ s', parseredirs fuel cmd s = .ok (wrap rs cmd, s') ∧ tokens s' = ts ∧
      s'.length ≤ s.length := by
  induction rs generalizing fuel s cmd with
  | nil =>
    obtain _ | fuel := fuel
    · omega
    have hnot : (tokens s).head?.any (Tok.isSym ['<', '>']) = false := by
      rw [hs]
      exact hts
    refine ⟨skip s, ?_, (tokens_skip s).trans hs, length_sh_skip_le s⟩
    rw [parseredirs, run_peek redirSymbols, hnot]
    rfl
  | cons r rs ih =>
    obtain _ | fuel := fuel
    · omega
    have hle := length_sh_skip_le s
    have hnext : (tokens s).head?.any (Tok.isSym ['<', '>']) = true := by
      rw [hs]
      obtain htype | htype := r.valid <;> simp [Redir.tokens, Tok.isSym, htype]
    have hskip : tokens (skip s) =
        .sym r.type :: .word r.file :: (rs.flatMap Redir.tokens ++ ts) := by
      rw [tokens_skip, hs]
      rfl
    obtain ⟨s₁, htype, hs₁, hlt₁, -⟩ := gettoken_sym hskip
    obtain ⟨s₂, hfile, hs₂, hlt₂⟩ := gettoken_word hs₁
    obtain ⟨s', hlater, hs', hle'⟩ := ih hs₂ (by omega : s₂.length < fuel)
      (redircmd cmd r.file r.type)
    refine ⟨s', ?_, hs', by omega⟩
    rw [parseredirs, run_peek redirSymbols, hnext]
    simp only [if_true]
    rw [run_bind htype, run_bind hfile]
    dsimp only
    rw [if_neg (by decide), wrap_cons]
    obtain hr | hr := r.valid
    · rw [hr] at hlater ⊢
      rw [if_pos rfl]
      exact hlater
    · rw [hr] at hlater ⊢
      rw [if_neg (by decide), if_pos rfl]
      exact hlater

theorem notNext_redir_of_stop (hstop : Stops ['|', ';'] ts) :
    NotNext ['<', '>'] (argTokens args ++ ts) := by
  cases args with
  | nil =>
    obtain rfl | ⟨c, ts', rfl, hc⟩ := hstop
    · rfl
    · obtain rfl | rfl : c = '|' ∨ c = ';' := by simpa using hc
      · rfl
      · rfl
  | cons a args => rfl

theorem execLoop_complete (hs : tokens s = argTokens args ++ ts)
    (hstop : Stops ['|', ';'] ts)
    (hfew : done.length + args.length ≤ 9) (hfuel : s.length < fuel) (rs : List Redir) :
    ∃ s', execLoop fuel done.length (wrap rs (.execcmd (filled done))) s =
        .ok ((done.length + args.length, wrap (rs ++ args.flatMap Prod.snd)
          (.execcmd (filled (done ++ args.map Prod.fst)))), s') ∧
      tokens s' = ts ∧ s'.length ≤ s.length := by
  induction args generalizing fuel s done rs with
  | nil =>
    obtain _ | fuel := fuel
    · omega
    have hle := length_sh_skip_le s
    rw [execLoop, run_peek stopSymbols]
    obtain rfl | ⟨c, ts', rfl, hc⟩ := hstop
    · have hskip : tokens (skip s) = [] := (tokens_skip s).trans hs
      have hend := gettoken_nil hskip
      have hnot : (tokens s).head?.any (Tok.isSym ['|', ';']) = false := by
        rw [hs]
        rfl
      refine ⟨[], ?_, tokens_of_nil rfl, Nat.zero_le _⟩
      rw [hnot]
      simp only [Bool.false_eq_true, if_false]
      rw [run_bind hend, if_pos rfl, List.flatMap_nil, List.append_nil, List.map_nil,
        List.append_nil]
      rfl
    · refine ⟨skip s, ?_, (tokens_skip s).trans hs, hle⟩
      have hnext : (tokens s).head?.any (Tok.isSym ['|', ';']) = true := by
        rw [hs]
        exact List.contains_iff_mem.2 hc
      rw [hnext, if_pos rfl, List.flatMap_nil, List.append_nil, List.map_nil, List.append_nil]
      rfl
  | cons a args ih =>
    obtain ⟨w, rs'⟩ := a
    rw [List.length_cons] at hfew
    obtain _ | fuel := fuel
    · omega
    have hle := length_sh_skip_le s
    have hs : tokens s = .word w :: (rs'.flatMap Redir.tokens ++ (argTokens args ++ ts)) := by
      rw [hs]
      simp [argTokens]
    have hnot : (tokens s).head?.any (Tok.isSym ['|', ';']) = false := by
      rw [hs]
      rfl
    obtain ⟨s₁, hword, hs₁, hlt₁⟩ := gettoken_word ((tokens_skip s).trans hs)
    obtain ⟨s₂, hredirs, hs₂, hle₂⟩ := parseredirs_complete hs₁ (notNext_redir_of_stop hstop)
      (by omega : s₁.length < fuel) (wrap rs (.execcmd (filled (done ++ [w]))))
    have hfew' : (done ++ [w]).length + args.length ≤ 9 := by
      rw [List.length_append, List.length_singleton]
      omega
    obtain ⟨s', hlater, hs', hle'⟩ := ih hs₂ hfew' (by omega : s₂.length < fuel)
      (rs ++ rs')
    refine ⟨s', ?_, hs', by omega⟩
    have hstore : (wrap rs (.execcmd (filled done))).store done.length (some w) =
        wrap rs (.execcmd (filled (done ++ [w]))) := by
      rw [store_wrap, filled_set (by simp only [MAXARGS]; omega)]
    rw [execLoop, run_peek stopSymbols, hnot]
    simp only [Bool.false_eq_true, if_false]
    rw [run_bind hword]
    simp only [hstore]
    rw [if_neg (by decide), if_neg (by decide), if_neg (by simp only [MAXARGS]; omega),
      run_bind hredirs, ← wrap_append]
    rw [List.length_append, List.length_singleton] at hlater
    rw [hlater]
    simp [Nat.add_assoc, Nat.add_comm 1]

theorem parseexec_complete (e : ExecPhrase) (hs : tokens s = e.tokens ++ ts)
    (hstop : Stops ['|', ';'] ts) (hfuel : s.length < fuel) :
    ∃ s', parseexec fuel s = .ok (e.cmd, s') ∧ tokens s' = ts ∧ s'.length ≤ s.length := by
  rw [ExecPhrase.tokens, List.append_assoc] at hs
  obtain ⟨s₁, hpre, hs₁, hle₁⟩ := parseredirs_complete hs (notNext_redir_of_stop hstop) hfuel
    execcmd
  have hfew : ([] : List Text).length + e.args.length ≤ 9 := by simpa using e.few
  obtain ⟨s', hloop, hs', hle'⟩ := execLoop_complete hs₁ hstop hfew
    (by omega : s₁.length < fuel) e.pre
  refine ⟨s', ?_, hs', by omega⟩
  have hstore : (wrap (e.pre ++ e.args.flatMap Prod.snd)
      (.execcmd (filled (e.args.map Prod.fst)))).store e.args.length none = e.cmd := by
    have hlt : (e.args.map Prod.fst).length < MAXARGS := by
      rw [List.length_map]
      exact Nat.lt_succ_of_le e.few
    have hnone := filled_set_none hlt
    rw [List.length_map] at hnone
    rw [store_wrap, hnone]
    rfl
  rw [List.length_nil, Nat.zero_add, List.nil_append] at hloop
  rw [parseexec, run_bind hpre, run_bind (show execLoop fuel 0 (wrap e.pre execcmd) s₁ = _ from
    hloop)]
  simp only [hstore]
  rfl

theorem parsepipe_complete (p : PipePhrase) (hs : tokens s = p.tokens ++ ts)
    (hstop : Stops [';'] ts) (hfuel : s.length < fuel) :
    ∃ s', parsepipe fuel s = .ok (p.cmd, s') ∧ tokens s' = ts ∧ s'.length ≤ s.length := by
  induction p generalizing s fuel with
  | exec e =>
    obtain _ | fuel := fuel
    · omega
    obtain ⟨s₁, hexec, hs₁, hle⟩ := parseexec_complete e hs (hstop.mono (by simp)) hfuel
    have hskip := length_sh_skip_le s₁
    have hnot : (tokens s₁).head?.any (Tok.isSym ['|']) = false := by
      obtain hnil | ⟨c, ts', hts, hc⟩ := hstop
      · rw [hs₁, hnil]
        rfl
      · rw [hs₁, hts, List.mem_singleton.1 hc]
        rfl
    refine ⟨skip s₁, ?_, (tokens_skip s₁).trans hs₁, by omega⟩
    rw [parsepipe, run_bind hexec, run_peek pipeSymbols, hnot]
    rfl
  | pipe e p ih =>
    obtain _ | fuel := fuel
    · omega
    rw [PipePhrase.tokens, List.append_assoc, List.cons_append] at hs
    obtain ⟨s₁, hexec, hs₁, hle⟩ := parseexec_complete e hs
      (.inr ⟨'|', _, rfl, by decide⟩) hfuel
    have hskip := length_sh_skip_le s₁
    have hnext : (tokens s₁).head?.any (Tok.isSym ['|']) = true := by
      rw [hs₁]
      rfl
    obtain ⟨s₂, hbar, hs₂, hlt, -⟩ := gettoken_sym ((tokens_skip s₁).trans hs₁)
    obtain ⟨s', hpipe, hs', hle'⟩ := ih hs₂ (by omega : s₂.length < fuel)
    refine ⟨s', ?_, hs', by omega⟩
    rw [parsepipe, run_bind hexec, run_peek pipeSymbols, hnext]
    simp only [if_true]
    rw [run_bind hbar, run_bind hpipe]
    rfl

theorem parsecomd_complete (l : LinePhrase) (hs : tokens s = l.tokens) (hfuel : s.length < fuel) :
    ∃ s', parsecomd fuel s = .ok (l.cmd, s') ∧ tokens s' = [] := by
  induction l generalizing s fuel with
  | pipe p =>
    obtain _ | fuel := fuel
    · omega
    have hs : tokens s = p.tokens ++ [] := by
      rw [hs, List.append_nil]
      rfl
    obtain ⟨s₁, hpipe, hs₁, -⟩ := parsepipe_complete p hs (.inl rfl) hfuel
    have hnot : (tokens s₁).head?.any (Tok.isSym [';']) = false := by
      rw [hs₁]
      rfl
    refine ⟨skip s₁, ?_, (tokens_skip s₁).trans hs₁⟩
    rw [parsecomd, run_bind hpipe, run_peek lineSymbols, hnot]
    rfl
  | line p l ih =>
    obtain _ | fuel := fuel
    · omega
    obtain ⟨s₁, hpipe, hs₁, hle⟩ := parsepipe_complete p hs (.inr ⟨_, _, rfl, by decide⟩) hfuel
    have hskip := length_sh_skip_le s₁
    have hnext : (tokens s₁).head?.any (Tok.isSym [';']) = true := by
      rw [hs₁]
      rfl
    obtain ⟨s₂, hcolon, hs₂, hlt, -⟩ := gettoken_sym ((tokens_skip s₁).trans hs₁)
    obtain ⟨s', hline, hs'⟩ := ih hs₂ (by omega : s₂.length < fuel)
    refine ⟨s', ?_, hs'⟩
    rw [parsecomd, run_bind hpipe, run_peek lineSymbols, hnext]
    simp only [if_true]
    rw [run_bind hcolon, run_bind hline]
    rfl

/-! ## What is parsed is a phrase -/

theorem stops_of_next {toks : List Char}
    (h : (tokens s).head?.any (Tok.isSym toks) = true) : Stops toks (tokens s) := by
  obtain ⟨c, ts, hs, hc⟩ := tokens_next h
  exact .inr ⟨c, ts, hs, hc⟩

/-- Of two kinds of symbols that could follow, one does not. -/
theorem Stops.of_notNext {c₀ : Char} {toks : List Char} (h : Stops (c₀ :: toks) ts)
    (hnot : ts.head?.any (Tok.isSym [c₀]) = false) : Stops toks ts := by
  obtain hnil | ⟨c, ts', hts, hc⟩ := h
  · exact .inl hnil
  · rw [hts] at hnot
    obtain hc | hc := List.mem_cons.1 hc
    · rw [hc] at hnot
      simp [Tok.isSym] at hnot
    · exact .inr ⟨c, ts', hts, hc⟩

theorem parseredirs_sound (h : parseredirs fuel cmd s = .ok (c, s')) :
    ∃ rs, tokens s = rs.flatMap Redir.tokens ++ tokens s' ∧ c = wrap rs cmd := by
  induction fuel generalizing cmd s with
  | zero => cases h
  | succ fuel ih =>
    rw [parseredirs, run_peek redirSymbols] at h
    cases hnext : (tokens s).head?.any (Tok.isSym ['<', '>']) with
    | false =>
      rw [hnext] at h
      cases h
      exact ⟨[], (tokens_skip s).symm, rfl⟩
    | true =>
      obtain ⟨type, ts, hs, htype⟩ := tokens_next hnext
      obtain ⟨s₁, hsym, hs₁, -⟩ := gettoken_sym ((tokens_skip s).trans hs)
      rw [hnext] at h
      simp only [if_true] at h
      rw [run_bind hsym] at h
      obtain ⟨-, hfile⟩ | ⟨d, s₂, -, hfile, hd⟩ | ⟨w, s₂, hs₂, hfile⟩ := gettoken_cases s₁
      · rw [run_bind hfile] at h
        cases h
      · rw [run_bind hfile] at h
        dsimp only at h
        rw [if_pos (by rintro rfl; cases hd)] at h
        cases h
      · have hvalid : type = '<' ∨ type = '>' := by simpa using htype
        have hlater : parseredirs fuel (redircmd cmd w type) s₂ = .ok (c, s') := by
          rw [run_bind hfile] at h
          dsimp only at h
          rw [if_neg (by decide)] at h
          obtain rfl | rfl := hvalid
          · rwa [if_pos rfl] at h
          · rwa [if_neg (by decide), if_pos rfl] at h
        obtain ⟨rs, hrs, hc⟩ := ih hlater
        refine ⟨⟨type, w, hvalid⟩ :: rs, ?_, hc⟩
        rw [hs, ← hs₁, hs₂, hrs]
        rfl

theorem execLoop_sound {argc : ℕ} {rs : List Redir} (hdone : done.length ≤ 9)
    (h : execLoop fuel done.length (wrap rs (.execcmd (filled done))) s = .ok ((argc, c), s')) :
    ∃ args, tokens s = argTokens args ++ tokens s' ∧ argc = done.length + args.length ∧
      argc ≤ 9 ∧ c = wrap (rs ++ args.flatMap Prod.snd)
        (.execcmd (filled (done ++ args.map Prod.fst))) ∧ Stops ['|', ';'] (tokens s') := by
  induction fuel generalizing done rs s with
  | zero => cases h
  | succ fuel ih =>
    rw [execLoop, run_peek stopSymbols] at h
    cases hnext : (tokens s).head?.any (Tok.isSym ['|', ';']) with
    | true =>
      rw [hnext] at h
      cases h
      refine ⟨[], (tokens_skip s).symm, rfl, hdone, by simp, ?_⟩
      rw [tokens_skip]
      exact stops_of_next hnext
    | false =>
      rw [hnext] at h
      simp only [Bool.false_eq_true, if_false] at h
      obtain ⟨hs, hget⟩ | ⟨d, s₁, -, hget, hd⟩ | ⟨w, s₁, hs, hget⟩ := gettoken_cases (skip s)
      · rw [run_bind hget] at h
        cases h
        refine ⟨[], ?_, rfl, hdone, by simp, .inl (tokens_of_nil rfl)⟩
        rw [← tokens_skip, hs]
        exact (tokens_of_nil rfl).symm
      · rw [run_bind hget] at h
        dsimp only at h
        rw [if_neg (by rintro rfl; revert hd; decide), if_pos (by rintro rfl; cases hd)] at h
        cases h
      · rw [run_bind hget] at h
        dsimp only at h
        rw [if_neg (by decide), if_neg (by decide)] at h
        by_cases hmany : done.length + 1 ≥ MAXARGS
        · rw [if_pos hmany] at h
          cases h
        rw [if_neg hmany] at h
        have hstore : (wrap rs (.execcmd (filled done))).store done.length (some w) =
            wrap rs (.execcmd (filled (done ++ [w]))) := by
          rw [store_wrap, filled_set (by omega)]
        rw [hstore] at h
        obtain ⟨c₁, s₂, hredirs, hlater⟩ := run_bind_eq_ok h
        obtain ⟨rs', hs₁, rfl⟩ := parseredirs_sound hredirs
        have hlength : (done ++ [w]).length = done.length + 1 := by simp
        rw [← wrap_append, ← hlength] at hlater
        obtain ⟨args, hs₂, hargc, hle, hc, hstop⟩ := ih
          (by simp only [MAXARGS] at hmany; omega) hlater
        refine ⟨(w, rs') :: args, ?_, ?_, hle, ?_, hstop⟩
        · rw [← tokens_skip, hs, hs₁, hs₂]
          simp [argTokens]
        · rw [hargc, hlength, List.length_cons]
          omega
        · rw [hc]
          simp

theorem parseexec_sound (h : parseexec fuel s = .ok (c, s')) :
    ∃ e : ExecPhrase, tokens s = e.tokens ++ tokens s' ∧ c = e.cmd ∧
      Stops ['|', ';'] (tokens s') := by
  obtain ⟨c₁, s₁, hredirs, hrest⟩ := run_bind_eq_ok h
  obtain ⟨⟨argc, c₂⟩, s₂, hloop, hend⟩ := run_bind_eq_ok hrest
  obtain ⟨pre, hs, rfl⟩ := parseredirs_sound hredirs
  have hloop : execLoop fuel ([] : List Text).length (wrap pre (.execcmd (filled []))) s₁ =
      .ok ((argc, c₂), s₂) := hloop
  obtain ⟨args, hs₁, hargc, hle, rfl, hstop⟩ := execLoop_sound (Nat.zero_le _) hloop
  cases hend
  have hfew : args.length ≤ 9 := by simpa [hargc] using hle
  refine ⟨⟨pre, args, hfew⟩, ?_, ?_, hstop⟩
  · rw [hs, hs₁, ExecPhrase.tokens, List.append_assoc]
  · have hlt : (args.map Prod.fst).length < MAXARGS := by
      rw [List.length_map]
      exact Nat.lt_succ_of_le hfew
    have hnone := filled_set_none hlt
    rw [List.length_map] at hnone
    rw [store_wrap, hargc, List.length_nil, Nat.zero_add, List.nil_append, hnone]
    rfl

theorem parsepipe_sound (h : parsepipe fuel s = .ok (c, s')) :
    ∃ p : PipePhrase, tokens s = p.tokens ++ tokens s' ∧ c = p.cmd ∧
      Stops [';'] (tokens s') := by
  induction fuel generalizing s c with
  | zero => cases h
  | succ fuel ih =>
    obtain ⟨c₁, s₁, hexec, hrest⟩ := run_bind_eq_ok h
    obtain ⟨e, hs, rfl, hstop⟩ := parseexec_sound hexec
    rw [run_peek pipeSymbols] at hrest
    cases hnext : (tokens s₁).head?.any (Tok.isSym ['|']) with
    | false =>
      rw [hnext] at hrest
      cases hrest
      refine ⟨.exec e, ?_, rfl, ?_⟩
      · rw [tokens_skip]
        exact hs
      · rw [tokens_skip]
        exact hstop.of_notNext hnext
    | true =>
      obtain ⟨d, ts, hs₁, hd⟩ := tokens_next hnext
      obtain ⟨s₂, hbar, hs₂, -⟩ := gettoken_sym ((tokens_skip s₁).trans hs₁)
      rw [hnext] at hrest
      simp only [if_true] at hrest
      rw [run_bind hbar] at hrest
      obtain ⟨c₂, s₃, hpipe, hend⟩ := run_bind_eq_ok hrest
      cases hend
      obtain ⟨p, hs₃, rfl, hstop'⟩ := ih hpipe
      refine ⟨.pipe e p, ?_, rfl, hstop'⟩
      rw [hs, hs₁, ← hs₂, hs₃, List.mem_singleton.1 hd]
      simp [PipePhrase.tokens]

theorem parsecomd_sound (h : parsecomd fuel s = .ok (c, s')) :
    ∃ l : LinePhrase, tokens s = l.tokens ++ tokens s' ∧ c = l.cmd ∧ tokens s' = [] := by
  induction fuel generalizing s c with
  | zero => cases h
  | succ fuel ih =>
    obtain ⟨c₁, s₁, hpipe, hrest⟩ := run_bind_eq_ok h
    obtain ⟨p, hs, rfl, hstop⟩ := parsepipe_sound hpipe
    rw [run_peek lineSymbols] at hrest
    cases hnext : (tokens s₁).head?.any (Tok.isSym [';']) with
    | false =>
      rw [hnext] at hrest
      cases hrest
      obtain hnil | ⟨d, ts', -, hd⟩ := hstop.of_notNext hnext
      · refine ⟨.pipe p, ?_, rfl, ?_⟩
        · rw [tokens_skip]
          exact hs
        · rw [tokens_skip]
          exact hnil
      · cases hd
    | true =>
      obtain ⟨d, ts, hs₁, hd⟩ := tokens_next hnext
      obtain ⟨s₂, hcolon, hs₂, -⟩ := gettoken_sym ((tokens_skip s₁).trans hs₁)
      rw [hnext] at hrest
      simp only [if_true] at hrest
      rw [run_bind hcolon] at hrest
      obtain ⟨c₂, s₃, hline, hend⟩ := run_bind_eq_ok hrest
      cases hend
      obtain ⟨l, hs₃, rfl, hnil⟩ := ih hline
      refine ⟨.line p l, ?_, rfl, hnil⟩
      rw [hs, hs₁, ← hs₂, hs₃, List.mem_singleton.1 hd]
      simp [LinePhrase.tokens]

/-! ## Whole lines -/

/-- The characters before the first NUL. -/
def line (buf : Text) : Text := buf.takeWhile (· ≠ nul)

theorem tokens_eq_nil_iff : tokens s = [] ↔ skip s = [] := by
  constructor
  · intro h
    cases hs : skip s with
    | nil => rfl
    | cons c rest =>
      cases hc : Sh.symbols.contains c with
      | true =>
        rw [tokens_of_symbol hs hc] at h
        cases h
      | false =>
        rw [tokens_of_word hs hc] at h
        cases h
  · exact tokens_of_nil

theorem parsecmd_eq_ok_iff (buf : Text) :
    parsecmd buf = .ok cmd ↔ ∃ l : LinePhrase, tokens (line buf) = l.tokens ∧ cmd = l.cmd := by
  constructor
  · intro h
    cases hparse : parsecomd ((line buf).length + 1) (line buf) with
    | error e =>
      rw [parsecmd_eq buf hparse] at h
      cases h
    | ok q =>
      obtain ⟨c, rest⟩ := q
      obtain ⟨l, hs, rfl, hrest⟩ := parsecomd_sound hparse
      rw [parsecmd_eq buf hparse] at h
      simp only [Except.bind, ← skip_eq, tokens_eq_nil_iff.1 hrest] at h
      cases h
      exact ⟨l, by rw [hs, hrest, List.append_nil], rfl⟩
  · rintro ⟨l, hs, rfl⟩
    obtain ⟨rest, hparse, hrest⟩ := parsecomd_complete l hs (Nat.lt_succ_self _)
    rw [parsecmd_eq buf hparse]
    simp [Except.bind, ← skip_eq, tokens_eq_nil_iff.1 hrest]

end Courses.Shell
