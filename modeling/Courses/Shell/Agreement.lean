import Courses.Shell.Parsers
import Mathlib.Data.List.DropRight

/-!
# The two parsers agree

The tokens of the two parsers are the same. The commands they build mirror each other: the
array of the one holds the arguments that the other collects, until there are too many for
the array. A line without too many arguments gets the same command from both.
-/
namespace Courses.Shell

open Courses.Lib.ListParser

/-! ## Commands -/

/-- The arguments before the first NULL. -/
def argsOf : List (Option Text) → List Text
  | some arg :: argv => arg :: argsOf argv
  | _ => []

/-- The command of `sh.c` as one of `parse.cc`. -/
def Sh.Cmd.command : Sh.Cmd → Command
  | .execcmd argv => .execommand (argsOf argv)
  | .redircmd type cmd file mode fd => .redircommand type cmd.command file mode fd
  | .pipecmd left right => .pipecommand left.command right.command
  | .commandcmd left right => .coloncommand left.command right.command

/-- Each simple command has at most `n` arguments. -/
def Command.ArgsAtMost (n : ℕ) : Command → Prop
  | .execommand args => args.length ≤ n
  | .redircommand _ cmd _ _ _ => cmd.ArgsAtMost n
  | .pipecommand first second => first.ArgsAtMost n ∧ second.ArgsAtMost n
  | .coloncommand first second => first.ArgsAtMost n ∧ second.ArgsAtMost n

/-- The same redirections, of a command with the array `argv` and of one without arguments. -/
inductive Mirrors (argv : List (Option Text)) : Sh.Cmd → Command → Prop
  | exec : Mirrors argv (.execcmd argv) (.execommand [])
  | redir {c : Sh.Cmd} {d : Command} (file : Text) (type : Char) :
    Mirrors argv c d → Mirrors argv (Sh.redircmd c file type) (d.redir file type)

variable {argv : List (Option Text)} {args : List Text} {c : Sh.Cmd} {d : Command} {s : Text}
  {fuel : ℕ}

theorem Mirrors.store (h : Mirrors argv c d) (argc : ℕ) (arg : Option Text) :
    Mirrors (argv.set argc arg) (c.store argc arg) d := by
  induction h with
  | exec => exact .exec
  | redir file type _ ih => exact .redir file type ih

theorem Mirrors.command_eq (h : Mirrors argv c d) : c.command = d.setArgs (argsOf argv) := by
  induction h with
  | exec => rfl
  | redir file type _ ih =>
    unfold Sh.redircmd Command.redir
    rw [Sh.Cmd.command, Command.setArgs, ih]

theorem Mirrors.argsAtMost_setArgs (h : Mirrors argv c d) (n : ℕ) :
    (d.setArgs args).ArgsAtMost n ↔ args.length ≤ n := by
  induction h with
  | exec => rfl
  | redir file type _ ih => exact ih

/-- The array with the first arguments filled in. -/
def filled (args : List Text) : List (Option Text) :=
  args.map some ++ List.replicate (Sh.MAXARGS - args.length) none

theorem filled_set (h : args.length < Sh.MAXARGS) (arg : Text) :
    (filled args).set args.length (some arg) = filled (args ++ [arg]) := by
  obtain ⟨n, hn⟩ : ∃ n, Sh.MAXARGS - args.length = n + 1 := ⟨Sh.MAXARGS - args.length - 1, by omega⟩
  have hrest : Sh.MAXARGS - (args ++ [arg]).length = n := by
    rw [List.length_append, List.length_singleton]
    omega
  unfold filled
  rw [hrest, hn, List.set_append_right _ _ (by simp), List.length_map, Nat.sub_self,
    List.replicate_succ, List.set_cons_zero]
  simp

theorem filled_set_none (h : args.length < Sh.MAXARGS) :
    (filled args).set args.length none = filled args := by
  obtain ⟨n, hn⟩ : ∃ n, Sh.MAXARGS - args.length = n + 1 := ⟨Sh.MAXARGS - args.length - 1, by omega⟩
  unfold filled
  rw [hn, List.set_append_right _ _ (by simp), List.length_map, Nat.sub_self,
    List.replicate_succ, List.set_cons_zero]

theorem argsOf_filled (h : args.length < Sh.MAXARGS) : argsOf (filled args) = args := by
  obtain ⟨n, hn⟩ : ∃ n, Sh.MAXARGS - args.length = n + 1 := ⟨Sh.MAXARGS - args.length - 1, by omega⟩
  have hargs : ∀ as : List Text, argsOf (as.map some ++ none :: List.replicate n none) = as := by
    intro as
    induction as with
    | nil => rfl
    | cons a as ih => exact congrArg (a :: ·) ih
  unfold filled
  rw [hn, List.replicate_succ]
  exact hargs args

/-! ## Tokens -/

theorem whitespace_contains (c : Char) :
    Sh.whitespace.contains c = Parse.whitespace.contains c := by
  rw [Bool.eq_iff_iff]
  simp only [Sh.whitespace, Parse.whitespace, List.contains_iff_mem, List.mem_cons,
    List.not_mem_nil, or_false]
  tauto

theorem symbols_contains (c : Char) : Sh.symbols.contains c = Parse.symbols.contains c := by
  rw [Bool.eq_iff_iff]
  simp only [Sh.symbols, Parse.symbols, List.contains_iff_mem, List.mem_cons, List.not_mem_nil,
    or_false]
  tauto

theorem skip_eq : Sh.skip = Parse.skip := by
  funext s
  unfold Sh.skip Parse.skip
  exact congrArg (List.dropWhile · s) (funext whitespace_contains)

theorem gettoken_eq : Sh.gettoken = Parse.getToken := by
  funext s
  unfold Sh.gettoken Parse.getToken
  rw [skip_eq]
  cases Parse.skip s with
  | nil => rfl
  | cons c s =>
    have hword : (fun c => !Sh.whitespace.contains c && !Sh.symbols.contains c) =
        fun c => !Parse.whitespace.contains c && !Parse.symbols.contains c := by
      funext d
      rw [whitespace_contains, symbols_contains]
    dsimp only
    rw [hword]
    by_cases hc : c = '<' ∨ c = '>' ∨ c = '|' ∨ c = ';'
    · rw [if_pos hc]
      rcases hc with rfl | rfl | rfl | rfl <;> rfl
    · have hfirst : ¬ (c = '<' ∨ c = '|' ∨ c = ';') := by tauto
      have hsecond : c ≠ '>' := by tauto
      rw [if_neg hc, if_neg hfirst, if_neg hsecond]

theorem peek_eq {toks toks' : List Char} (h : ∀ c, c ∈ toks ↔ c ∈ toks') :
    Sh.peek toks = Parse.peek toks' := by
  have hcontains : (toks.contains ·) = (toks'.contains ·) := by
    funext c
    rw [Bool.eq_iff_iff, List.contains_iff_mem, List.contains_iff_mem, h]
  funext s
  unfold Sh.peek Parse.peek
  rw [skip_eq, hcontains]

/-! ## Runs -/

section Agree

variable {α β γ δ : Type} {P : α → β → Prop} {Q : β → Prop} {P' : γ → δ → Prop} {Q' : δ → Prop}

/-- The results match and leave the same rest, or both fail, unless the first has stopped
because of too many arguments: then the second has too many if it succeeds. -/
def AgreeAt (P : α → β → Prop) (Q : β → Prop) :
    Except Stop (α × Text) → Except Stop (β × Text) → Prop
  | .ok (a, s), y => ∃ b, y = .ok (b, s) ∧ P a b
  | .error .tooManyArgs, y => ∀ b s, y = .ok (b, s) → Q b
  | .error e, y => y = .error e

def Agree (P : α → β → Prop) (Q : β → Prop) (x : ParseM α) (y : ParseM β) : Prop :=
  ∀ s, AgreeAt P Q (x s) (y s)

namespace Agree

theorem pure {a : α} {b : β} (h : P a b) :
    Agree P Q (pure a : ParseM α) (pure b : ParseM β) := fun _ => ⟨b, rfl, h⟩

theorem throw {e : Stop} (h : e ≠ .tooManyArgs) :
    Agree P Q (throw e : ParseM α) (throw e : ParseM β) := by
  intro s
  cases e with
  | tooManyArgs => exact absurd rfl h
  | _ => rfl

theorem tooMany {y : ParseM β} (h : ∀ s b s', y s = .ok (b, s') → Q b) :
    Agree P Q (MonadExcept.throw Stop.tooManyArgs : ParseM α) y := fun s => h s

theorem bind {x : ParseM α} {y : ParseM β} {f : α → ParseM γ} {g : β → ParseM δ}
    (hxy : Agree P Q x y) (hfg : ∀ a b, P a b → Agree P' Q' (f a) (g b))
    (hg : ∀ b, Q b → ∀ s d s', g b s = .ok (d, s') → Q' d) :
    Agree P' Q' (x >>= f) (y >>= g) := by
  intro s
  have hs := hxy s
  cases hx : x s with
  | ok r =>
    obtain ⟨a, s'⟩ := r
    rw [hx] at hs
    obtain ⟨b, hy, hab⟩ := hs
    rw [run_bind hx, run_bind hy]
    exact hfg a b hab s'
  | error e =>
    rw [hx] at hs
    rw [run_bind_error hx]
    cases e with
    | tooManyArgs =>
      intro d s' hd
      cases hy : y s with
      | ok r =>
        rw [run_bind hy] at hd
        exact hg r.1 (hs r.1 r.2 hy) r.2 d s' hd
      | error e =>
        rw [run_bind_error hy] at hd
        cases hd
    | _ => exact run_bind_error hs

/-- After a step that both make. -/
theorem bind_same {x : ParseM α} {f : α → ParseM γ} {g : α → ParseM δ}
    (hx : ∀ s, ∃ r, x s = .ok r) (hfg : ∀ a, Agree P' Q' (f a) (g a)) :
    Agree P' Q' (x >>= f) (x >>= g) := by
  intro s
  obtain ⟨⟨a, s'⟩, hs⟩ := hx s
  rw [run_bind hs, run_bind hs]
  exact hfg a s'

theorem ite {x x' : ParseM α} {y y' : ParseM β} {p : Prop} [Decidable p] (h : Agree P Q x y)
    (h' : Agree P Q x' y') : Agree P Q (if p then x else x') (if p then y else y') := by
  by_cases hp : p
  · rw [if_pos hp, if_pos hp]
    exact h
  · rw [if_neg hp, if_neg hp]
    exact h'

end Agree

theorem getToken_ok (s : Text) : ∃ r, Parse.getToken s = .ok r := by
  unfold Parse.getToken
  cases Parse.skip s with
  | nil => exact ⟨_, rfl⟩
  | cons c s =>
    by_cases hc : c = '<' ∨ c = '>' ∨ c = '|' ∨ c = ';'
    · exact ⟨_, if_pos hc⟩
    · exact ⟨_, if_neg hc⟩

theorem peek_ok (tokens : List Char) (s : Text) : ∃ r, Parse.peek tokens s = .ok r := ⟨_, rfl⟩

/-- A delimiter that was seen is the next token. -/
theorem getToken_skip {s s' : Text} {tok : Char} (hs : Parse.skip s = tok :: s')
    (htok : tok ∈ ['<', '>', '|', ';']) :
    Parse.getToken (Parse.skip s) = .ok ((tok, [tok]), Parse.skip s') := by
  have hidem : Parse.skip (Parse.skip s) = tok :: s' := by
    rw [← hs]
    exact List.dropWhile_idempotent _ s
  have hmem : tok = '<' ∨ tok = '>' ∨ tok = '|' ∨ tok = ';' := by simpa using htok
  unfold Parse.getToken
  rw [hidem]
  exact if_pos hmem

/-- Where a delimiter is seen, it is taken; elsewhere nothing is. -/
theorem Agree.ifPeek {toks : List Char} (htoks : ∀ c ∈ toks, c ∈ ['<', '>', '|', ';'])
    {f : Char × Text → ParseM γ} {g : Char × Text → ParseM δ} {x : ParseM γ} {y : ParseM δ}
    (hfg : ∀ tok w, tok ∈ toks → Agree P' Q' (f (tok, w)) (g (tok, w))) (hxy : Agree P' Q' x y) :
    Agree P' Q' (do if ← Parse.peek toks then Parse.getToken >>= f else x)
      (do if ← Parse.peek toks then Parse.getToken >>= g else y) := by
  intro s
  have hpeek : Parse.peek toks s =
      .ok ((Parse.skip s).head?.any (toks.contains ·), Parse.skip s) := rfl
  rw [run_bind hpeek, run_bind hpeek]
  by_cases hfound : (Parse.skip s).head?.any (toks.contains ·) = true
  · rw [if_pos hfound, if_pos hfound]
    cases hskip : Parse.skip s with
    | nil =>
      rw [hskip] at hfound
      cases hfound
    | cons tok s' =>
      have htok : tok ∈ toks := by simpa [hskip] using hfound
      have htoken := getToken_skip hskip (htoks tok htok)
      rw [hskip] at htoken
      rw [run_bind htoken, run_bind htoken]
      exact hfg tok [tok] htok _
  · rw [if_neg hfound, if_neg hfound]
    exact hxy _

end Agree

/-! ## Simple commands -/

theorem agree_parseredirs (h : Mirrors argv c d) :
    Agree (Mirrors argv) (fun _ => False) (Sh.parseredirs fuel c) (Parse.parseRedir fuel d) := by
  induction fuel generalizing c d with
  | zero => exact Agree.throw Stop.noConfusion
  | succ fuel ih =>
    unfold Sh.parseredirs Parse.parseRedir
    rw [gettoken_eq, peek_eq fun _ => Iff.rfl]
    refine Agree.ifPeek (by simp) (fun tok _ htok => ?_) (Agree.pure h)
    refine Agree.bind_same getToken_ok fun file => Agree.ite (Agree.throw Stop.noConfusion) ?_
    have hkind : tok = '<' ∨ tok = '>' := by simpa using htok
    rcases hkind with rfl | rfl
    · exact ih (h.redir file.2 '<')
    · exact ih (h.redir file.2 '>')

theorem mirrors_of_parseRedir {d' : Command} {s' : Text} (h : Mirrors argv c d)
    (hr : Parse.parseRedir fuel d s = .ok (d', s')) : ∃ c', Mirrors argv c' d' := by
  have hs : AgreeAt _ _ (Sh.parseredirs fuel c s) (Parse.parseRedir fuel d s) :=
    agree_parseredirs h s
  rw [hr] at hs
  cases hx : Sh.parseredirs fuel c s with
  | ok r =>
    rw [hx] at hs
    obtain ⟨b, hb, hm⟩ := hs
    cases hb
    exact ⟨r.1, hm⟩
  | error e =>
    rw [hx] at hs
    cases e with
    | tooManyArgs => exact (hs d' s' rfl).elim
    | _ => cases hs

/-- Only more arguments come, and the command stays a simple one with redirections. -/
theorem execLoop_grows {r : List Text × Command} {s' : Text} (hd : Mirrors argv c d)
    (h : Parse.execLoop fuel args d s = .ok (r, s')) :
    args.length ≤ r.1.length ∧ ∃ c', Mirrors argv c' r.2 := by
  induction fuel generalizing args c d s with
  | zero => cases h
  | succ fuel ih =>
    unfold Parse.execLoop at h
    rw [run_bind (show Parse.peek [';', '|'] s = .ok (_, _) from rfl)] at h
    by_cases hfound : (Parse.skip s).head?.any ([';', '|'].contains ·) = true
    · rw [if_pos hfound] at h
      cases h
      exact ⟨le_rfl, c, hd⟩
    rw [if_neg hfound] at h
    obtain ⟨⟨⟨status, arg⟩, rest⟩, htoken⟩ := getToken_ok (Parse.skip s)
    rw [run_bind htoken] at h
    dsimp only at h
    by_cases hend : status = nul
    · rw [if_pos hend] at h
      cases h
      exact ⟨le_rfl, c, hd⟩
    rw [if_neg hend] at h
    by_cases hkind : status ≠ 'a'
    · rw [if_pos hkind] at h
      cases h
    rw [if_neg hkind] at h
    cases hredir : Parse.parseRedir fuel d rest with
    | error e =>
      rw [run_bind_error hredir] at h
      cases h
    | ok q =>
      rw [run_bind hredir] at h
      obtain ⟨c', hq⟩ := mirrors_of_parseRedir hd hredir
      obtain ⟨hle, hsimple⟩ := ih hq h
      rw [List.length_append] at hle
      exact ⟨by omega, hsimple⟩

theorem agree_execLoop (hargs : args.length < Sh.MAXARGS) (h : Mirrors (filled args) c d) :
    Agree (fun x y => x.1 = y.1.length ∧ y.1.length < Sh.MAXARGS ∧ Mirrors (filled y.1) x.2 y.2)
      (fun y => 9 < y.1.length ∧ ∃ argv c', Mirrors argv c' y.2) (Sh.execLoop fuel args.length c)
        (Parse.execLoop fuel args d) := by
  induction fuel generalizing args c d with
  | zero => exact Agree.throw Stop.noConfusion
  | succ fuel ih =>
    have hdone := Agree.pure (Q := fun y => 9 < y.1.length ∧ ∃ argv c', Mirrors argv c' y.2)
      (P := fun x y => x.1 = y.1.length ∧ y.1.length < Sh.MAXARGS ∧ Mirrors (filled y.1) x.2 y.2)
      (a := (args.length, c)) (b := (args, d)) ⟨rfl, hargs, h⟩
    unfold Sh.execLoop Parse.execLoop
    rw [gettoken_eq, peek_eq (fun _ => by simp [or_comm] : ∀ c, c ∈ ['|', ';'] ↔ c ∈ [';', '|'])]
    refine Agree.bind_same (peek_ok _) fun found => Agree.ite hdone ?_
    refine Agree.bind_same getToken_ok fun token => Agree.ite hdone ?_
    refine Agree.ite (Agree.throw Stop.noConfusion) ?_
    have hstore := h.store args.length (some token.2)
    rw [filled_set hargs] at hstore
    dsimp only
    by_cases hmany : args.length + 1 ≥ Sh.MAXARGS
    · rw [if_pos hmany]
      apply Agree.tooMany
      intro s r s' hr
      cases hredir : Parse.parseRedir fuel d s with
      | error e =>
        rw [run_bind_error hredir] at hr
        cases hr
      | ok q =>
        rw [run_bind hredir] at hr
        obtain ⟨c', hq⟩ := mirrors_of_parseRedir h hredir
        obtain ⟨hle, hsimple⟩ := execLoop_grows hq hr
        rw [List.length_append, List.length_singleton] at hle
        exact ⟨hmany.trans hle, _, hsimple⟩
    · rw [if_neg hmany]
      refine Agree.bind (agree_parseredirs hstore) (fun c' d' h' => ?_) fun _ hfalse => hfalse.elim
      have hlt : (args ++ [token.2]).length < Sh.MAXARGS := by
        rw [List.length_append, List.length_singleton]
        omega
      have hnext := ih hlt h'
      rw [List.length_append, List.length_singleton] at hnext
      exact hnext

/-- What the two parsers make of a part of the line. -/
abbrev SameCommand (x : ParseM Sh.Cmd) (y : ParseM Command) : Prop :=
  Agree (fun c d => c.command = d ∧ d.ArgsAtMost 9) (fun d => ¬ d.ArgsAtMost 9) x y

theorem agree_parseexec : SameCommand (Sh.parseexec fuel) (Parse.parseExec fuel) := by
  have hexec : Mirrors (filled []) Sh.execcmd (.execommand []) := .exec
  unfold Sh.parseexec Parse.parseExec
  refine Agree.bind (agree_parseredirs hexec) (fun c d h => ?_) fun _ hfalse => hfalse.elim
  have hloop : Agree _ _ (Sh.execLoop fuel 0 c) (Parse.execLoop fuel [] d) :=
    agree_execLoop (by decide) h
  refine Agree.bind hloop ?_ ?_
  · rintro ⟨argc, c'⟩ ⟨args, d'⟩ ⟨rfl, hlt, h'⟩
    have hstore := h'.store args.length none
    rw [filled_set_none hlt] at hstore
    have heq := hstore.command_eq
    rw [argsOf_filled hlt] at heq
    exact Agree.pure ⟨heq, (hstore.argsAtMost_setArgs 9).mpr (Nat.le_of_lt_succ hlt)⟩
  · rintro ⟨args, d'⟩ ⟨hmany, argv, c', hsimple⟩ s t s' ht
    cases ht
    rw [hsimple.argsAtMost_setArgs]
    exact Nat.not_le.mpr hmany

/-! ## Pipes and sequences -/

/-- A command, and another one after a delimiter. -/
theorem agree_joined {x x' : ParseM Sh.Cmd} {y y' : ParseM Command} {tok : Char}
    (htok : tok ∈ ['<', '>', '|', ';']) {f : Sh.Cmd → Sh.Cmd → Sh.Cmd}
    {g : Command → Command → Command} (hfg : ∀ c c', (f c c').command = g c.command c'.command)
    (hg : ∀ d d', (g d d').ArgsAtMost 9 ↔ d.ArgsAtMost 9 ∧ d'.ArgsAtMost 9)
    (h : SameCommand x y) (h' : SameCommand x' y') :
    SameCommand (do
        let cmd ← x
        if ← Sh.peek [tok] then
          let _ ← Sh.gettoken
          return f cmd (← x')
        else return cmd)
      (do
        let cmd ← y
        if ← Parse.peek [tok] then
          let _ ← Parse.getToken
          return g cmd (← y')
        else return cmd) := by
  rw [gettoken_eq, peek_eq fun _ => Iff.rfl]
  refine Agree.bind h ?_ ?_
  · rintro c _ ⟨rfl, hc⟩
    refine Agree.ifPeek (by simpa using htok) (fun _ _ _ => ?_) (Agree.pure ⟨rfl, hc⟩)
    refine Agree.bind h' ?_ ?_
    · rintro c' _ ⟨rfl, hc'⟩
      exact Agree.pure ⟨hfg c c', (hg _ _).mpr ⟨hc, hc'⟩⟩
    · intro d' hd' s t s' ht
      cases ht
      exact fun hall => hd' ((hg _ _).mp hall).2
  · -- the first command has too many arguments, whatever follows
    intro d hd s t s' ht
    rw [run_bind (show Parse.peek [tok] s = .ok (_, _) from rfl)] at ht
    by_cases hfound : (Parse.skip s).head?.any ([tok].contains ·) = true
    · rw [if_pos hfound] at ht
      obtain ⟨r, htoken⟩ := getToken_ok (Parse.skip s)
      rw [run_bind htoken] at ht
      cases hy' : y' r.2 with
      | error e =>
        rw [run_bind_error hy'] at ht
        cases ht
      | ok q =>
        rw [run_bind hy'] at ht
        cases ht
        exact fun hall => hd ((hg _ _).mp hall).1
    · rw [if_neg hfound] at ht
      cases ht
      exact hd

theorem agree_parsepipe : SameCommand (Sh.parsepipe fuel) (Parse.parsePipe fuel) := by
  induction fuel with
  | zero => exact Agree.throw Stop.noConfusion
  | succ fuel ih =>
    unfold Sh.parsepipe Parse.parsePipe
    exact agree_joined (by decide) (fun _ _ => rfl) (fun _ _ => Iff.rfl) agree_parseexec ih

theorem agree_parsecomd : SameCommand (Sh.parsecomd fuel) (Parse.parseColon fuel) := by
  induction fuel with
  | zero => exact Agree.throw Stop.noConfusion
  | succ fuel ih =>
    unfold Sh.parsecomd Parse.parseColon
    exact agree_joined (by decide) (fun _ _ => rfl) (fun _ _ => Iff.rfl) agree_parsepipe ih

/-! ## The bounds are large enough -/

/-- On fewer than `k` characters the parser does not run out of fuel. -/
abbrev Ends {α : Type} (k : ℕ) (x : ParseM α) : Prop :=
  Returns Stop.outOfFuel (fun _ => True) k x fun _ => True

section Ends

variable {α : Type} {k : ℕ}

theorem length_skip_le (s : Text) : (Parse.skip s).length ≤ s.length :=
  (List.dropWhile_suffix _).length_le

/-- A token takes at least one character, except at the end. -/
theorem getToken_spec (s : Text) : ∃ r rest, Parse.getToken s = .ok (r, rest) ∧
    rest.length ≤ s.length ∧ (Parse.skip s ≠ [] → rest.length < s.length) ∧
      (r.1 ≠ nul → Parse.skip s ≠ []) := by
  have hskip := length_skip_le s
  unfold Parse.getToken
  cases hs : Parse.skip s with
  | nil => exact ⟨(nul, []), [], rfl, Nat.zero_le _, fun h => absurd rfl h, fun h => absurd rfl h⟩
  | cons c s' =>
    rw [hs, List.length_cons] at hskip
    have hrest : ∀ rest : Text, rest.length ≤ s'.length →
        rest.length ≤ s.length ∧ (c :: s' ≠ [] → rest.length < s.length) := by
      intro rest hle
      exact ⟨by omega, fun _ => by omega⟩
    dsimp only
    by_cases hc : c = '<' ∨ c = '>' ∨ c = '|' ∨ c = ';'
    · rw [if_pos hc]
      exact ⟨_, _, rfl, (hrest _ (length_skip_le s')).1, (hrest _ (length_skip_le s')).2,
        fun _ => List.cons_ne_nil _ _⟩
    · rw [if_neg hc]
      have hspace : Parse.whitespace.contains c = false := by
        have hhead := List.head?_dropWhile_not (Parse.whitespace.contains ·) s
        have hdrop : s.dropWhile (Parse.whitespace.contains ·) = c :: s' := hs
        rw [hdrop] at hhead
        simpa using hhead
      have hsymbol : Parse.symbols.contains c = false := by
        simpa [Parse.symbols] using hc
      generalize hp : (fun c => !Parse.whitespace.contains c && !Parse.symbols.contains c) = inWord
      have hword : inWord c = true := by
        rw [← hp]
        dsimp only
        rw [hspace, hsymbol]
        rfl
      rw [List.dropWhile_cons_of_pos hword]
      have hdrop : (s'.dropWhile inWord).length ≤ s'.length :=
        (List.dropWhile_suffix inWord).length_le
      have hle := (length_skip_le _).trans hdrop
      exact ⟨_, _, rfl, (hrest _ hle).1, (hrest _ hle).2, fun _ => List.cons_ne_nil _ _⟩

theorem Ends.getToken_bind {f : Char × Text → ParseM α} (hf : ∀ r, r.1 ≠ nul → Ends k (f r))
    (hend : ∀ r, r.1 = nul → Ends (k + 1) (f r)) : Ends (k + 1) (Parse.getToken >>= f) := by
  refine Returns.bind_takes (Q := fun r => r.1 ≠ nul) (P := fun r => r.1 = nul) ?_ hf hend
  intro s _
  obtain ⟨r, rest, htoken, hle, hless, hne⟩ := getToken_spec s
  rw [htoken]
  refine ⟨⟨(em _).symm, fun _ _ => trivial, hle⟩, fun a rest' h ha => ?_⟩
  cases h
  exact hless (hne ha)

theorem Ends.getToken : Ends k Parse.getToken := by
  intro s _ _
  obtain ⟨r, rest, htoken, hle, -⟩ := getToken_spec s
  rw [htoken]
  exact ⟨trivial, fun _ _ => trivial, hle⟩

theorem Ends.peek (tokens : List Char) : Ends k (Parse.peek tokens) :=
  fun s _ _ => ⟨trivial, fun _ _ => trivial, length_skip_le s⟩

theorem Ends.ifPeek {toks : List Char} {f : Char × Text → ParseM α} {x : ParseM α}
    (hf : ∀ r, Ends k (f r)) (hx : Ends (k + 1) x) :
    Ends (k + 1) (do if ← Parse.peek toks then Parse.getToken >>= f else x) := by
  intro s hlt _
  have hskip := length_skip_le s
  rw [run_bind (show Parse.peek toks s = .ok (_, _) from rfl)]
  by_cases hfound : (Parse.skip s).head?.any (toks.contains ·) = true
  · rw [if_pos hfound]
    obtain ⟨r, rest, htoken, -, hless, -⟩ := getToken_spec (Parse.skip s)
    have hne : Parse.skip (Parse.skip s) ≠ [] := by
      have hidem : Parse.skip (Parse.skip s) = Parse.skip s := List.dropWhile_idempotent _ s
      rw [hidem]
      intro hnil
      rw [hnil] at hfound
      cases hfound
    have hrest := hless hne
    rw [run_bind htoken]
    exact (hf r rest (by omega) fun _ _ => trivial).mono (by omega)
  · rw [if_neg hfound]
    exact (hx _ (by omega) fun _ _ => trivial).mono hskip

theorem ends_parseRedir (hk : k ≤ fuel) (hfuel : 0 < fuel) (d : Command) :
    Ends k (Parse.parseRedir fuel d) := by
  induction fuel generalizing k d with
  | zero => exact absurd hfuel (Nat.lt_irrefl 0)
  | succ fuel ih =>
    obtain _ | k := k
    · exact Returns.zero _
    unfold Parse.parseRedir
    refine Ends.ifPeek (fun token => ?_) (Returns.pure trivial)
    obtain _ | k := k
    · exact Returns.zero _
    refine Ends.getToken.bind fun file _ => ?_
    dsimp only
    split_ifs
    · exact Returns.throw Stop.noConfusion
    · exact ih (by omega) (by omega) _
    · exact ih (by omega) (by omega) _

theorem ends_execLoop (hk : k ≤ fuel) (hfuel : 0 < fuel) (args : List Text) (d : Command) :
    Ends k (Parse.execLoop fuel args d) := by
  induction fuel generalizing k args d with
  | zero => exact absurd hfuel (Nat.lt_irrefl 0)
  | succ fuel ih =>
    obtain _ | k := k
    · exact Returns.zero _
    unfold Parse.execLoop
    refine (Ends.peek _).bind fun found _ => ?_
    split_ifs
    · exact Returns.pure trivial
    apply Ends.getToken_bind
    · intro token htoken
      dsimp only
      rw [if_neg htoken]
      split_ifs
      · exact Returns.throw Stop.noConfusion
      · obtain _ | k := k
        · exact Returns.zero _
        exact (ends_parseRedir (by omega) (by omega) _).bind fun d' _ =>
          ih (by omega) (by omega) _ _
    · intro token htoken
      dsimp only
      rw [if_pos htoken]
      exact Returns.pure trivial

theorem ends_parseExec (hk : k ≤ fuel) (hfuel : 0 < fuel) : Ends k (Parse.parseExec fuel) :=
  (ends_parseRedir hk hfuel _).bind fun d _ => (ends_execLoop hk hfuel _ d).bind fun _ _ =>
    Returns.pure trivial

theorem ends_parsePipe (hk : k ≤ fuel) (hfuel : 0 < fuel) : Ends k (Parse.parsePipe fuel) := by
  induction fuel generalizing k with
  | zero => exact absurd hfuel (Nat.lt_irrefl 0)
  | succ fuel ih =>
    obtain _ | k := k
    · exact Returns.zero _
    unfold Parse.parsePipe
    refine (ends_parseExec hk hfuel).bind fun d _ => Ends.ifPeek (fun _ => ?_) (Returns.pure trivial)
    obtain _ | k := k
    · exact Returns.zero _
    exact (ih (by omega) (by omega)).bind fun _ _ => Returns.pure trivial

theorem ends_parseColon (hk : k ≤ fuel) (hfuel : 0 < fuel) : Ends k (Parse.parseColon fuel) := by
  induction fuel generalizing k with
  | zero => exact absurd hfuel (Nat.lt_irrefl 0)
  | succ fuel ih =>
    obtain _ | k := k
    · exact Returns.zero _
    unfold Parse.parseColon
    refine (ends_parsePipe hk hfuel).bind fun d _ => Ends.ifPeek (fun _ => ?_) (Returns.pure trivial)
    obtain _ | k := k
    · exact Returns.zero _
    exact (ih (by omega) (by omega)).bind fun _ _ => Returns.pure trivial

end Ends

/-! ## Whole lines -/

/-- The line is rejected with a message. -/
def Rejects {α : Type} (x : Except Stop α) : Prop := ∃ e, x = .error e ∧ e ≠ .outOfFuel

/-- The end of both: nothing may be left of the line. -/
theorem parsecmd_eq (buf : Text) {r : Except Stop (Sh.Cmd × Text)}
    (h : Sh.parsecomd ((buf.takeWhile (· ≠ nul)).length + 1) (buf.takeWhile (· ≠ nul)) = r) :
    Sh.parsecmd buf = r.bind fun q => if Parse.skip q.2 ≠ [] then .error .leftovers else .ok q.1 := by
  unfold Sh.parsecmd Sh.parseline
  dsimp only
  rw [h]
  cases r with
  | error e => rfl
  | ok q =>
    change (if Sh.skip q.2 ≠ [] then _ else _) = _
    rw [skip_eq]
    rfl

theorem parseCommand_eq (buf : Text) {r : Except Stop (Command × Text)}
    (h : Parse.parseColon ((buf.takeWhile (· ≠ nul)).length + 1) (buf.takeWhile (· ≠ nul)) = r) :
    Parse.parseCommand buf =
      r.bind fun q => if Parse.skip q.2 ≠ [] then .error .leftovers else .ok q.1 := by
  unfold Parse.parseCommand
  dsimp only
  rw [h]
  rfl

/-- What `parsecmd` and `parse_command` make of a buffer. -/
theorem parsecmd_cases (buf : Text) :
    (∃ c, Sh.parsecmd buf = .ok c ∧ Parse.parseCommand buf = .ok c.command ∧
        c.command.ArgsAtMost 9) ∨
      (Rejects (Sh.parsecmd buf) ∧ (Rejects (Parse.parseCommand buf) ∨
        ∃ d, Parse.parseCommand buf = .ok d ∧ ¬ d.ArgsAtMost 9)) := by
  have hleftovers : ∀ {α : Type}, Rejects (.error .leftovers : Except Stop α) :=
    ⟨.leftovers, rfl, Stop.noConfusion⟩
  have hagree : AgreeAt _ _
      (Sh.parsecomd ((buf.takeWhile (· ≠ nul)).length + 1) (buf.takeWhile (· ≠ nul)))
      (Parse.parseColon ((buf.takeWhile (· ≠ nul)).length + 1) (buf.takeWhile (· ≠ nul))) :=
    agree_parsecomd _
  have hends := ends_parseColon le_rfl (Nat.succ_pos (buf.takeWhile (· ≠ nul)).length)
    (buf.takeWhile (· ≠ nul)) (Nat.lt_succ_self _) fun _ _ => trivial
  cases hy : Parse.parseColon ((buf.takeWhile (· ≠ nul)).length + 1)
      (buf.takeWhile (· ≠ nul)) with
  | error e =>
    have hne : e ≠ .outOfFuel := by
      rw [hy] at hends
      exact hends
    have hparse : Rejects (Parse.parseCommand buf) := ⟨e, parseCommand_eq buf hy, hne⟩
    refine Or.inr ⟨?_, Or.inl hparse⟩
    cases hx : Sh.parsecomd ((buf.takeWhile (· ≠ nul)).length + 1)
        (buf.takeWhile (· ≠ nul)) with
    | ok q =>
      rw [hx, hy] at hagree
      obtain ⟨d, hd, -⟩ := hagree
      cases hd
    | error e' =>
      refine ⟨e', parsecmd_eq buf hx, ?_⟩
      rintro rfl
      rw [hx, hy] at hagree
      cases hagree
      exact hne rfl
  | ok q =>
    obtain ⟨d, rest⟩ := q
    have hparse := parseCommand_eq buf hy
    cases hx : Sh.parsecomd ((buf.takeWhile (· ≠ nul)).length + 1)
        (buf.takeWhile (· ≠ nul)) with
    | ok q' =>
      obtain ⟨c, rest'⟩ := q'
      have hsh := parsecmd_eq buf hx
      rw [hx, hy] at hagree
      obtain ⟨d', hd, rfl, hargs⟩ := hagree
      cases hd
      by_cases hrest : Parse.skip rest ≠ []
      · simp only [Except.bind, if_pos hrest] at hsh hparse
        exact Or.inr ⟨hsh ▸ hleftovers, Or.inl (hparse ▸ hleftovers)⟩
      · simp only [Except.bind, if_neg hrest] at hsh hparse
        exact Or.inl ⟨c, hsh, hparse, hargs⟩
    | error e =>
      rw [hx, hy] at hagree
      cases e with
      | tooManyArgs =>
        refine Or.inr ⟨⟨.tooManyArgs, parsecmd_eq buf hx, Stop.noConfusion⟩, ?_⟩
        by_cases hrest : Parse.skip rest ≠ []
        · simp only [Except.bind, if_pos hrest] at hparse
          exact Or.inl (hparse ▸ hleftovers)
        · simp only [Except.bind, if_neg hrest] at hparse
          exact Or.inr ⟨d, hparse, hagree d rest rfl⟩
      | _ => cases hagree

/-- A line whose simple commands have at most nine arguments each is rejected by both parsers,
or gets the same command from both. -/
theorem parsers_agree (buf : Text)
    (h : ∀ d, Parse.parseCommand buf = .ok d → d.ArgsAtMost 9) :
    (Rejects (Sh.parsecmd buf) ∧ Rejects (Parse.parseCommand buf)) ∨
      ∃ c, Sh.parsecmd buf = .ok c ∧ Parse.parseCommand buf = .ok c.command := by
  rcases parsecmd_cases buf with ⟨c, hsh, hparse, -⟩ | ⟨hsh, hparse | ⟨d, hd, hargs⟩⟩
  · exact Or.inr ⟨c, hsh, hparse⟩
  · exact Or.inl ⟨hsh, hparse⟩
  · exact absurd (h d hd) hargs

/-- `a<i|b>o ;c` -/
def pipeline : Text := ['a', '<', 'i', '|', 'b', '>', 'o', ' ', ';', 'c']

def pipelineCommand : Command :=
  .coloncommand
    (.pipecommand ((Command.execommand [['a']]).redir ['i'] '<')
      ((Command.execommand [['b']]).redir ['o'] '>'))
    (.execommand [['c']])

theorem parsers_agree_pipeline :
    ∃ c, Sh.parsecmd pipeline = .ok c ∧ c.command = pipelineCommand := by
  have hparse : Parse.parseCommand pipeline = .ok pipelineCommand := by
    rfl
  have hargs : ∀ d, Parse.parseCommand pipeline = .ok d → d.ArgsAtMost 9 := by
    intro d hd
    rw [hparse] at hd
    cases hd
    simp [pipelineCommand, Command.redir, Command.ArgsAtMost]
  rcases parsers_agree pipeline hargs with ⟨-, e, he, -⟩ | ⟨c, hsh, hc⟩
  · rw [hparse] at he
    cases he
  · rw [hparse] at hc
    exact ⟨c, hsh, (Except.ok.inj hc).symm⟩

end Courses.Shell
