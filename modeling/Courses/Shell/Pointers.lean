import Courses.Shell.Printing

/-!
# The parser at its pointers

The parser of `sh.c` once more, with the pointer `*ps` as a position in the line and a read of
the memory wherever the source has one. The line ends with a NUL, and a read behind it is out of
bounds. This parser does what the one on the rest of the line does.
-/
namespace Courses.Shell

/-- Why the parser does not answer. -/
inductive Crash
  | outOfBounds
  | exits (e : Stop)
  deriving DecidableEq

/-- A parser moves the pointer. -/
abbrev PtrM := StateT ℕ (Except Crash)

namespace Pointers

variable (text : Text)

/-- `*s` -/
def deref (s : ℕ) : Except Crash Char :=
  match (text ++ [nul])[s]? with
  | some c => .ok c
  | none => .error .outOfBounds

/-- `strchr` also finds the NUL at the end of the string. -/
def strchr (str : Text) (c : Char) : Bool := c = nul || str.contains c

/-- `while(s < es && p(*s)) s++` -/
def advance (p : Char → Bool) (s : ℕ) : Except Crash ℕ :=
  if s < text.length then do
    if p (← deref text s) then advance p (s + 1) else return s
  else return s
termination_by text.length - s

def inSpace (c : Char) : Bool := strchr Sh.whitespace c

def inWord (c : Char) : Bool := !strchr Sh.whitespace c && !strchr Sh.symbols c

/-- `gettoken`: the kind of token, `q` and `eq`. -/
def gettoken : PtrM (Char × ℕ × ℕ) := do
  let q ← advance text inSpace (← get)
  let c ← deref text q
  let (ret, eq) ←
    if c = nul then pure (nul, q)
    else if c = '<' ∨ c = '|' ∨ c = ';' then pure (c, q + 1)
    else if c = '>' then pure (c, q + 1)
    else pure ('a', ← advance text inWord q)
  set (← advance text inSpace eq)
  return (ret, q, eq)

def peek (toks : Text) : PtrM Bool := do
  let s ← advance text inSpace (← get)
  set s
  let c ← deref text s
  return c ≠ nul && strchr toks c

/-- `mkcopy`, where `strncpy` stops at a NUL. -/
def mkcopy (s es : ℕ) : Except Crash Text :=
  if s < es then do
    let c ← deref text s
    if c = nul then return [] else return c :: (← mkcopy (s + 1) es)
  else return []
termination_by es - s

/-- The loop of `parseredirs`. -/
def parseredirs : ℕ → Sh.Cmd → PtrM Sh.Cmd
  | 0, _ => throw (.exits .outOfFuel)
  | fuel + 1, cmd => do
    if ← peek text ['<', '>'] then
      let (tok, _, _) ← gettoken text
      let (kind, q, eq) ← gettoken text
      if kind ≠ 'a' then throw (.exits .missingFile)
      else if tok = '<' then parseredirs fuel (Sh.redircmd cmd (← mkcopy text q eq) '<')
      else if tok = '>' then parseredirs fuel (Sh.redircmd cmd (← mkcopy text q eq) '>')
      else parseredirs fuel cmd
    else return cmd

/-- The loop of `parseexec`; it answers with `argc` and `ret`. -/
def execLoop : ℕ → ℕ → Sh.Cmd → PtrM (ℕ × Sh.Cmd)
  | 0, _, _ => throw (.exits .outOfFuel)
  | fuel + 1, argc, ret => do
    if ← peek text ['|', ';'] then return (argc, ret)
    else
      let (tok, q, eq) ← gettoken text
      if tok = nul then return (argc, ret)
      else if tok ≠ 'a' then throw (.exits .syntaxError)
      else
        let ret := ret.store argc (some (← mkcopy text q eq))
        if argc + 1 ≥ Sh.MAXARGS then throw (.exits .tooManyArgs)
        else
          let ret ← parseredirs text fuel ret
          execLoop fuel (argc + 1) ret

def parseexec (fuel : ℕ) : PtrM Sh.Cmd := do
  let ret ← parseredirs text fuel Sh.execcmd
  let (argc, ret) ← execLoop text fuel 0 ret
  return ret.store argc none

def parsepipe : ℕ → PtrM Sh.Cmd
  | 0 => throw (.exits .outOfFuel)
  | fuel + 1 => do
    let cmd ← parseexec text (fuel + 1)
    if ← peek text ['|'] then
      let _ ← gettoken text
      return .pipecmd cmd (← parsepipe fuel)
    else return cmd

/-- The commands separated by semicolons. -/
def parsecomd : ℕ → PtrM Sh.Cmd
  | 0 => throw (.exits .outOfFuel)
  | fuel + 1 => do
    let cmd ← parsepipe text (fuel + 1)
    if ← peek text [';'] then
      let _ ← gettoken text
      return .commandcmd cmd (← parsecomd fuel)
    else return cmd

def parseline (fuel : ℕ) : PtrM Sh.Cmd := parsecomd text fuel

/-- `parsecmd` of a buffer, which ends at its first NUL. -/
def parsecmd (buf : Text) : Except Crash Sh.Cmd := do
  let text := line buf
  let (cmd, s) ← parseline text (text.length + 1) 0
  let (_, s) ← peek text [] s
  if s ≠ text.length then throw (.exits .leftovers) else return cmd


/-! ## Reading the line -/

variable {text} {p : ℕ} {f g : Char → Bool}

theorem deref_of_lt (h : p < text.length) : deref text p = .ok text[p] := by
  simp [deref, List.getElem?_append_left h, h]

theorem deref_length : deref text text.length = .ok nul := by simp [deref]

theorem drop_eq_cons (h : p < text.length) : text.drop p = text[p] :: text.drop (p + 1) :=
  List.drop_eq_getElem_cons h

theorem advance_eq (hp : p ≤ text.length) (hfg : ∀ c ∈ text, f c = g c) :
    advance text f p = .ok (p + ((text.drop p).takeWhile g).length) := by
  induction hn : text.length - p generalizing p with
  | zero =>
    have hend : p = text.length := by omega
    rw [advance, if_neg (by omega), hend]
    simp [pure, Except.pure]
  | succ n ih =>
    have hlt : p < text.length := by omega
    have hread := deref_of_lt hlt
    have hc := hfg text[p] (List.getElem_mem hlt)
    rw [advance, if_pos hlt, hread, drop_eq_cons hlt]
    cases hg : g text[p] with
    | true =>
      have hlater := ih (p := p + 1) (by omega) (by omega)
      simp only [bind, Except.bind, hc, hg, if_true, hlater, List.takeWhile_cons_of_pos,
        List.length_cons]
      congr 1
      omega
    | false =>
      simp [bind, Except.bind, hc, hg, pure, Except.pure]

/-- Where a loop over characters stops, and what it has passed. -/
theorem advance_spec (hp : p ≤ text.length) (hfg : ∀ c ∈ text, f c = g c) :
    ∃ p', advance text f p = .ok p' ∧ p ≤ p' ∧ p' ≤ text.length ∧
      text.drop p' = (text.drop p).dropWhile g ∧
      (text.drop p).take (p' - p) = (text.drop p).takeWhile g := by
  have hsplit := List.takeWhile_append_dropWhile (p := g) (l := text.drop p)
  have hlength := congrArg List.length hsplit
  rw [List.length_append, List.length_drop] at hlength
  refine ⟨_, advance_eq hp hfg, by omega, by omega, ?_, ?_⟩
  · have hdrop : ((text.drop p).takeWhile g ++ (text.drop p).dropWhile g).drop
        ((text.drop p).takeWhile g).length = (text.drop p).dropWhile g := List.drop_left
    rw [hsplit] at hdrop
    rw [← List.drop_drop, hdrop]
  · have htake : ((text.drop p).takeWhile g ++ (text.drop p).dropWhile g).take
        ((text.drop p).takeWhile g).length = (text.drop p).takeWhile g := List.take_left
    rw [hsplit] at htake
    rw [Nat.add_sub_cancel_left, htake]

theorem mkcopy_eq {q eq : ℕ} (hnul : nul ∉ text) (hle : q ≤ eq) (heq : eq ≤ text.length) :
    mkcopy text q eq = .ok ((text.drop q).take (eq - q)) := by
  induction hn : eq - q generalizing q with
  | zero =>
    rw [mkcopy, if_neg (by omega)]
    rfl
  | succ n ih =>
    have hlt : q < text.length := by omega
    have hc : text[q] ≠ nul := fun h => hnul (h ▸ List.getElem_mem hlt)
    have hlater := ih (by omega : q + 1 ≤ eq) (by omega)
    rw [mkcopy, if_pos (by omega), deref_of_lt hlt, drop_eq_cons hlt, List.take_succ_cons]
    simp only [bind, Except.bind, hc, if_false, hlater, pure, Except.pure]

theorem strchr_eq {c : Char} (str : Text) (hc : c ≠ nul) : strchr str c = str.contains c := by
  simp [strchr, hc]

theorem inSpace_eq (hnul : nul ∉ text) : ∀ c ∈ text, inSpace c = Sh.whitespace.contains c :=
  fun _ hc => strchr_eq _ fun h => hnul (h ▸ hc)

theorem inWord_eq (hnul : nul ∉ text) : ∀ c ∈ text, inWord c = Courses.Shell.inWord c := by
  intro c hc
  have hne : c ≠ nul := fun h => hnul (h ▸ hc)
  rw [inWord, strchr_eq _ hne, strchr_eq _ hne]
  rfl

/-! ## Simulation -/

section Simulation

variable {α β γ δ : Type} {P : α → β → Prop} {Q : γ → δ → Prop}

/-- The results match and the pointer is at the rest of the line, or both exit alike. -/
def SimAt (text : Text) (P : α → β → Prop) (r : Except Crash (α × ℕ)) :
    Except Stop (β × Text) → Prop
  | .ok (b, s) => ∃ a p, r = .ok (a, p) ∧ p ≤ text.length ∧ s = text.drop p ∧ P a b
  | .error e => r = .error (.exits e)

def Sim (text : Text) (P : α → β → Prop) (x : PtrM α) (y : ParseM β) : Prop :=
  ∀ p ≤ text.length, SimAt text P (x p) (y (text.drop p))

namespace Sim

theorem pure {a : α} {b : β} (h : P a b) :
    Sim text P (Pure.pure a : PtrM α) (Pure.pure b : ParseM β) :=
  fun p hp => ⟨a, p, rfl, hp, rfl, h⟩

theorem throw (e : Stop) :
    Sim text P (MonadExcept.throw (.exits e) : PtrM α) (MonadExcept.throw e : ParseM β) :=
  fun _ _ => rfl

theorem bind {x : PtrM α} {y : ParseM β} {f : α → PtrM γ} {g : β → ParseM δ}
    (hxy : Sim text P x y) (hfg : ∀ a b, P a b → Sim text Q (f a) (g b)) :
    Sim text Q (x >>= f) (y >>= g) := by
  intro p hp
  have hs := hxy p hp
  cases hy : y (text.drop p) with
  | ok r =>
    obtain ⟨b, s⟩ := r
    rw [hy] at hs
    obtain ⟨a, p', hx, hp', rfl, hab⟩ := hs
    rw [Courses.Lib.ListParser.run_bind hy]
    have hbind : (x >>= f) p = f a p' := by
      change (x p >>= fun r => f r.1 r.2) = f a p'
      rw [hx]
      rfl
    rw [hbind]
    exact hfg a b hab p' hp'
  | error e =>
    rw [hy] at hs
    rw [Courses.Lib.ListParser.run_bind_error hy]
    change (x p >>= fun r => f r.1 r.2) = .error (.exits e)
    rw [show x p = .error (.exits e) from hs]
    rfl

theorem ite {x x' : PtrM α} {y y' : ParseM β} {p : Prop} [Decidable p] (h : Sim text P x y)
    (h' : Sim text P x' y') : Sim text P (if p then x else x') (if p then y else y') := by
  by_cases hp : p
  · rw [if_pos hp, if_pos hp]
    exact h
  · rw [if_neg hp, if_neg hp]
    exact h'

/-- A copy of what is read back without changing the pointer. -/
theorem copy {q eq : ℕ} {w : Text} {f : Text → PtrM γ} {y : ParseM δ}
    (hcopy : mkcopy text q eq = .ok w) (h : Sim text Q (f w) y) :
    Sim text Q (liftM (mkcopy text q eq) >>= f) y := by
  rw [hcopy]
  exact h

end Sim

theorem run_read {x : Except Crash α} {a : α} (h : x = .ok a) (f : α → PtrM γ) (p : ℕ) :
    (liftM x >>= f) p = f a p := by
  rw [h]
  rfl

theorem run_get (f : ℕ → PtrM γ) (p : ℕ) : (get >>= f) p = f p p := rfl

theorem run_set (f : PUnit → PtrM γ) (p p' : ℕ) : (set p' >>= f) p = f ⟨⟩ p' := rfl

theorem sim_peek (hnul : nul ∉ text) (toks : Text) :
    Sim text Eq (peek text toks) (Sh.peek toks) := by
  intro p hp
  obtain ⟨p', hadvance, -, hp', hdrop, -⟩ := advance_spec hp (inSpace_eq hnul)
  have hskip : Sh.skip (text.drop p) = text.drop p' := hdrop.symm
  obtain rfl | hlt := hp'.eq_or_lt
  · refine ⟨false, text.length, ?_, le_rfl, hskip, ?_⟩
    · rw [peek, run_get, run_read hadvance, run_set, run_read deref_length]
      rfl
    · rw [hskip]
      simp
  · have hc : text[p'] ≠ nul := fun h => hnul (h ▸ List.getElem_mem hlt)
    refine ⟨toks.contains text[p'], p', ?_, hp', hskip, ?_⟩
    · rw [peek, run_get, run_read hadvance, run_set, run_read (deref_of_lt hlt), strchr_eq toks hc,
        decide_eq_true hc]
      rfl
    · rw [hskip, drop_eq_cons hlt]
      rfl

/-- The same kind of token, with the characters that `mkcopy` copies. -/
def TokenAt (text : Text) (r : Char × ℕ × ℕ) (r' : Char × Text) : Prop :=
  r.1 = r'.1 ∧ mkcopy text r.2.1 r.2.2 = .ok r'.2

theorem sim_gettoken (hnul : nul ∉ text) :
    Sim text (TokenAt text) (gettoken text) Sh.gettoken := by
  intro p hp
  obtain ⟨q, hadvance, -, hq, hdrop, -⟩ := advance_spec hp (inSpace_eq hnul)
  have hskip : Sh.skip (text.drop p) = text.drop q := hdrop.symm
  obtain rfl | hlt := hq.eq_or_lt
  · have hend : advance text inSpace text.length = .ok text.length := by
      rw [advance, if_neg (lt_irrefl _)]
      rfl
    have hcopy : mkcopy text text.length text.length = .ok [] := by
      rw [mkcopy, if_neg (lt_irrefl _)]
      rfl
    rw [List.drop_length] at hskip
    rw [Sh.gettoken, hskip]
    refine ⟨(nul, text.length, text.length), text.length, ?_, le_rfl, by simp, rfl, hcopy⟩
    rw [gettoken, run_get, run_read hadvance, run_read deref_length, if_pos rfl,
      pure_bind]
    exact run_read hend _ _
  · have hc : text[q] ≠ nul := fun h => hnul (h ▸ List.getElem_mem hlt)
    have hread := deref_of_lt hlt
    rw [drop_eq_cons hlt] at hskip
    have hleft : ∀ eq w ret, q ≤ eq → eq ≤ text.length → (text.drop q).take (eq - q) = w →
        gettoken text p = (do
          set (← advance text inSpace eq)
          return (ret, q, eq) : PtrM (Char × ℕ × ℕ)) p →
        SimAt text (TokenAt text) (gettoken text p) (.ok ((ret, w), Sh.skip (text.drop eq))) := by
      intro eq w ret hle heq hw hrun
      obtain ⟨p', hlast, -, hp', hdrop', -⟩ := advance_spec heq (inSpace_eq hnul)
      refine ⟨(ret, q, eq), p', ?_, hp', hdrop'.symm, rfl, ?_⟩
      · rw [hrun, run_read hlast]
        rfl
      · rw [mkcopy_eq hnul hle heq, hw]
    have hone : (text.drop q).take (q + 1 - q) = [text[q]] := by
      rw [Nat.add_sub_cancel_left, drop_eq_cons hlt, List.take_succ_cons, List.take_zero]
    rw [Sh.gettoken, hskip]
    dsimp only
    by_cases hfirst : text[q] = '<' ∨ text[q] = '|' ∨ text[q] = ';'
    · rw [if_pos hfirst]
      apply hleft (q + 1) [text[q]] text[q] (by omega) (by omega) hone
      rw [gettoken, run_get, run_read hadvance, run_read hread, if_neg hc, if_pos hfirst]
      rfl
    · rw [if_neg hfirst]
      by_cases hsecond : text[q] = '>'
      · rw [if_pos hsecond]
        apply hleft (q + 1) [text[q]] text[q] (by omega) (by omega) hone
        rw [gettoken, run_get, run_read hadvance, run_read hread, if_neg hc, if_neg hfirst,
          if_pos hsecond]
        rfl
      · rw [if_neg hsecond]
        obtain ⟨eq, hword, hle, heq, hdrop', htake⟩ := advance_spec hq (inWord_eq hnul)
        rw [drop_eq_cons hlt] at hdrop' htake
        rw [← drop_eq_cons hlt] at htake
        have hsim := hleft eq _ 'a' hle heq htake
        rw [hdrop', drop_eq_cons hlt] at hsim
        apply hsim
        rw [gettoken, run_get, run_read hadvance, run_read hread, if_neg hc, if_neg hfirst,
          if_neg hsecond]
        exact run_read hword _ _

variable {fuel : ℕ}

theorem sim_parseredirs (hnul : nul ∉ text) (cmd : Sh.Cmd) :
    Sim text Eq (parseredirs text fuel cmd) (Sh.parseredirs fuel cmd) := by
  induction fuel generalizing cmd with
  | zero => exact Sim.throw _
  | succ fuel ih =>
    unfold parseredirs Sh.parseredirs
    apply (sim_peek hnul _).bind
    rintro found _ rfl
    apply Sim.ite
    · apply (sim_gettoken hnul).bind
      rintro ⟨tok, _, _⟩ ⟨_, _⟩ ⟨rfl, -⟩
      apply (sim_gettoken hnul).bind
      rintro ⟨kind, q, eq⟩ ⟨_, file⟩ ⟨rfl, hcopy⟩
      exact Sim.ite (Sim.throw _) (Sim.ite (Sim.copy hcopy (ih _))
        (Sim.ite (Sim.copy hcopy (ih _)) (ih cmd)))
    · exact Sim.pure rfl

theorem sim_execLoop (hnul : nul ∉ text) (argc : ℕ) (ret : Sh.Cmd) :
    Sim text Eq (execLoop text fuel argc ret) (Sh.execLoop fuel argc ret) := by
  induction fuel generalizing argc ret with
  | zero => exact Sim.throw _
  | succ fuel ih =>
    unfold execLoop Sh.execLoop
    apply (sim_peek hnul _).bind
    rintro found _ rfl
    apply Sim.ite
    · exact Sim.pure rfl
    · apply (sim_gettoken hnul).bind
      rintro ⟨tok, q, eq⟩ ⟨_, arg⟩ ⟨rfl, hcopy⟩
      apply Sim.ite (Sim.pure rfl)
      apply Sim.ite (Sim.throw _)
      apply Sim.copy hcopy
      apply Sim.ite (Sim.throw _)
      apply (sim_parseredirs hnul _).bind
      rintro ret' _ rfl
      exact ih _ _

theorem sim_parseexec (hnul : nul ∉ text) :
    Sim text Eq (parseexec text fuel) (Sh.parseexec fuel) := by
  apply (sim_parseredirs hnul _).bind
  rintro ret _ rfl
  apply (sim_execLoop hnul _ _).bind
  rintro ⟨argc, ret'⟩ _ rfl
  exact Sim.pure rfl

/-- A part of a line, and the rest of the line after a symbol. -/
theorem sim_joined {x x' : PtrM Sh.Cmd} {y y' : ParseM Sh.Cmd} (hnul : nul ∉ text) (toks : Text)
    (join : Sh.Cmd → Sh.Cmd → Sh.Cmd) (h : Sim text Eq x y) (h' : Sim text Eq x' y') :
    Sim text Eq (do
        let cmd ← x
        if ← peek text toks then
          let _ ← gettoken text
          return join cmd (← x')
        else return cmd)
      (do
        let cmd ← y
        if ← Sh.peek toks then
          let _ ← Sh.gettoken
          return join cmd (← y')
        else return cmd) := by
  apply h.bind
  rintro cmd _ rfl
  apply (sim_peek hnul _).bind
  rintro found _ rfl
  apply Sim.ite
  · apply (sim_gettoken hnul).bind
    intro _ _ _
    apply h'.bind
    rintro rest _ rfl
    exact Sim.pure rfl
  · exact Sim.pure rfl

theorem sim_parsepipe (hnul : nul ∉ text) :
    Sim text Eq (parsepipe text fuel) (Sh.parsepipe fuel) := by
  induction fuel with
  | zero => exact Sim.throw _
  | succ fuel ih => exact sim_joined hnul _ .pipecmd (sim_parseexec hnul) ih

theorem sim_parsecomd (hnul : nul ∉ text) :
    Sim text Eq (parsecomd text fuel) (Sh.parsecomd fuel) := by
  induction fuel with
  | zero => exact Sim.throw _
  | succ fuel ih => exact sim_joined hnul _ .commandcmd (sim_parsepipe hnul) ih

end Simulation

/-! ## Whole lines -/

theorem nul_notMem_line (buf : Text) : nul ∉ line buf := by
  intro h
  simpa using List.mem_takeWhile_imp h

/-- The parser does the same at its pointers as on the rest of the line. -/
theorem parsecmd_eq (buf : Text) : parsecmd buf = (Sh.parsecmd buf).mapError .exits := by
  have hnul := nul_notMem_line buf
  have hparse : SimAt (line buf) Eq (parsecomd (line buf) ((line buf).length + 1) 0)
      (Sh.parsecomd ((line buf).length + 1) (line buf)) := sim_parsecomd hnul 0 (Nat.zero_le _)
  cases hsh : Sh.parsecomd ((line buf).length + 1) (line buf) with
  | error e =>
    rw [hsh] at hparse
    have hrun : parseline (line buf) ((line buf).length + 1) 0 = .error (.exits e) := hparse
    rw [Courses.Shell.parsecmd_eq buf hsh, parsecmd, hrun]
    rfl
  | ok r =>
    obtain ⟨cmd, rest⟩ := r
    rw [hsh] at hparse
    obtain ⟨_, p, hrun, hp, rfl, rfl⟩ := hparse
    have hpeek := sim_peek hnul [] p hp
    obtain ⟨found, p', hlook, hp', hskip, -⟩ := hpeek
    have hrun : parseline (line buf) ((line buf).length + 1) 0 = .ok (_, p) := hrun
    have hend : Parse.skip ((line buf).drop p) ≠ [] ↔ p' ≠ (line buf).length := by
      rw [← skip_eq, hskip, Ne, List.drop_eq_nil_iff]
      omega
    rw [Courses.Shell.parsecmd_eq buf hsh, parsecmd, hrun]
    simp only [bind, Except.bind, hlook]
    by_cases hleft : p' = (line buf).length
    · rw [if_neg (not_not.2 hleft), if_neg (by rw [hend]; exact not_not.2 hleft)]
      rfl
    · rw [if_pos hleft, if_pos (hend.2 hleft)]
      rfl

theorem parsecmd_eq_ok_iff {cmd : Sh.Cmd} (buf : Text) :
    parsecmd buf = .ok cmd ↔ ∃ l : LinePhrase, tokens (line buf) = l.tokens ∧ cmd = l.cmd := by
  rw [← Courses.Shell.parsecmd_eq_ok_iff, parsecmd_eq]
  cases Sh.parsecmd buf <;> simp [Except.mapError]

theorem line_render {ts : List Tok} (h : ∀ t ∈ ts, t.Valid) : line (render ts) = render ts :=
  List.takeWhile_eq_self_iff.2 fun c hc => by simpa using render_ne_nul h c hc

end Pointers

/-- The parser never reads behind the line and never goes on forever; it accepts the lines
whose tokens are a phrase, and makes of a printed command this command. -/
theorem parsecmd_accepts_phrases :
    (∀ buf, (∀ e, Pointers.parsecmd buf = .error e → e ≠ .outOfBounds ∧ e ≠ .exits .outOfFuel) ∧
      ((∃ cmd, Pointers.parsecmd buf = .ok cmd) ↔
        ∃ l : LinePhrase, tokens (line buf) = l.tokens)) ∧
    ∀ cmd, LineShaped cmd → Pointers.parsecmd (render cmd.print) = .ok cmd := by
  refine ⟨fun buf => ⟨?_, ?_⟩, ?_⟩
  · intro e he
    rw [Pointers.parsecmd_eq] at he
    obtain ⟨c, hc, -⟩ | ⟨⟨e', he', hfuel⟩, -⟩ := parsecmd_cases buf
    · rw [hc] at he
      cases he
    · rw [he'] at he
      cases he
      exact ⟨Crash.noConfusion, fun h => hfuel (Crash.exits.inj h)⟩
  · constructor
    · rintro ⟨cmd, hcmd⟩
      obtain ⟨l, hl, -⟩ := (Pointers.parsecmd_eq_ok_iff buf).1 hcmd
      exact ⟨l, hl⟩
    · rintro ⟨l, hl⟩
      exact ⟨l.cmd, (Pointers.parsecmd_eq_ok_iff buf).2 ⟨l, hl, rfl⟩⟩
  · intro cmd hcmd
    obtain ⟨l, hl, htokens⟩ := hcmd.phrase
    rw [Pointers.parsecmd_eq_ok_iff]
    refine ⟨l, ?_, hl.symm⟩
    rw [Pointers.line_render hcmd.valid, tokens_render hcmd.valid, htokens]

theorem parsecmd_accepts_phrases_pipe :
    Pointers.parsecmd ['a', ' ', 'b', ' ', '<', ' ', 'i', ' ', '|', ' ', 'c'] =
      .ok (.pipecmd (Sh.redircmd (.execcmd (filled [['a'], ['b']])) ['i'] '<')
        (.execcmd (filled [['c']]))) := by
  have hword : ∀ c, inWord c = true ∧ c ≠ nul → Word [c] := by
    intro c hc
    refine ⟨List.cons_ne_nil _ _, fun d hd => ?_⟩
    rwa [List.mem_singleton.1 hd]
  have hleft : ExecShaped (.execcmd (filled [['a'], ['b']])) := by
    refine .exec _ (by decide) fun w hw => ?_
    obtain rfl | rfl := List.mem_pair.1 hw
    · exact hword 'a' (by decide)
    · exact hword 'b' (by decide)
  have hright : ExecShaped (.execcmd (filled [['c']])) := by
    refine .exec _ (by decide) fun w hw => ?_
    rw [List.mem_singleton.1 hw]
    exact hword 'c' (by decide)
  have hredir := ExecShaped.redir _ _ '<' hleft (hword 'i' (by decide)) (.inl rfl)
  have hparse := parsecmd_accepts_phrases.2 _ (.pipe _ (.pipe _ _ hredir (.exec _ hright)))
  have hprint : render (Sh.Cmd.pipecmd (Sh.redircmd (.execcmd (filled [['a'], ['b']])) ['i'] '<')
      (.execcmd (filled [['c']]))).print =
      ['a', ' ', 'b', ' ', '<', ' ', 'i', ' ', '|', ' ', 'c'] := by rfl
  rwa [hprint] at hparse

end Courses.Shell
