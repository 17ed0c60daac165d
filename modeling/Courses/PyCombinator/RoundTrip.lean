import Courses.PyCombinator.Parsing

/-!
# Reading back what was printed

What the reader returns has only identifiers for names, so its text is read back as well.
The bounds on the loops of the reader are never what stops it.
-/
namespace Courses.PyCombinator

open Courses.Lib.ListParser

variable {α β : Type} {k n : ℕ} {Q : α → Prop} {R : β → Prop}

/-! ## What the reader returns -/

/-- On fewer than `k` tokens the reader returns only values with `Q`, and does not run out of
fuel. -/
abbrev Reads (k : ℕ) (x : ReadM α) (Q : α → Prop) : Prop :=
  Returns ReadError.outOfFuel IsToken k x Q

namespace Reads

/-- A token that is taken leaves fewer. -/
theorem pop {f : Option Token → ReadM β} (hnone : Reads (k + 1) (f none) R)
    (hsome : ∀ t, IsToken t → Reads k (f (some t)) R) : Reads (k + 1) (pop >>= f) R := by
  refine Returns.bind_takes (Q := fun a => ∃ t, a = some t ∧ IsToken t) (P := (· = none)) ?_ ?_ ?_
  · intro ts hts
    cases ts with
    | nil => exact ⟨⟨Or.inr rfl, hts, le_rfl⟩, fun _ _ h ⟨t, ht, _⟩ => by cases h; cases ht⟩
    | cons t ts =>
      have hrest : ∀ u ∈ ts, IsToken u := fun u hu => hts u (List.mem_cons_of_mem _ hu)
      refine ⟨⟨Or.inl ⟨t, rfl, hts t List.mem_cons_self⟩, hrest, Nat.le_succ _⟩, ?_⟩
      intro a rest h _
      cases h
      exact Nat.lt_succ_self _
  · rintro _ ⟨t, rfl, ht⟩
    exact hsome t ht
  · rintro _ rfl
    exact hnone

/-- A round of a loop takes the token it was looking for. -/
theorem ifCurrent {t : Token} {x y : ReadM β} (hx : Reads k x R) (hy : Reads (k + 1) y R) :
    Reads (k + 1) (do
      if (← current) = some t then
        let _ ← PyCombinator.pop
        x
      else y) R := by
  intro ts hlt hts
  rw [run_bind (run_current ts)]
  by_cases hhead : ts.head? = some t
  · rw [if_pos hhead]
    obtain ⟨ts, rfl⟩ : ∃ ts', ts = t :: ts' := by
      cases ts with
      | nil => cases hhead
      | cons u ts =>
        cases hhead
        exact ⟨ts, rfl⟩
    rw [run_bind (run_pop t ts)]
    exact (hx ts (Nat.lt_of_succ_lt_succ hlt) fun u hu => hts u (List.mem_cons_of_mem _ hu)).mono
      (Nat.le_succ _)
  · rw [if_neg hhead]
    exact hy ts hlt hts

theorem current : Reads k current fun _ => True := fun _ _ hts => ⟨trivial, hts, le_rfl⟩

theorem expect (s : Text) : Reads k (expect s) fun _ => True := by
  obtain _ | k := k
  · exact Returns.zero _
  apply Reads.pop
  · rw [if_pos (by simp)]
    exact Returns.throw ReadError.noConfusion
  · intro t _
    split_ifs
    · exact Returns.throw ReadError.noConfusion
    · exact Returns.pure trivial

theorem commaLoop {reader : ReadM α} (hreader : Reads k reader Q) (hk : k ≤ n) (hn : 0 < n) :
    Reads k (commaLoop reader n) fun as => ∀ a ∈ as, Q a := by
  induction n generalizing k with
  | zero => exact absurd hn (Nat.lt_irrefl 0)
  | succ n ih =>
    obtain _ | k := k
    · exact Returns.zero _
    unfold PyCombinator.commaLoop
    apply Reads.ifCurrent
    · obtain _ | k := k
      · exact Returns.zero _
      have hreader' := hreader.mono (Nat.le_succ (k + 1))
      refine hreader'.bind fun a ha => (ih hreader' (by omega) (by omega)).bind fun as has => ?_
      apply Returns.pure
      intro b hb
      rcases List.mem_cons.mp hb with rfl | hb
      · exact ha
      · exact has b hb
    · exact Returns.pure fun a ha => absurd ha List.not_mem_nil

theorem readCommaSeparated {reader : ReadM α} (hreader : Reads k reader Q) (hk : k ≤ n)
    (hn : 0 < n) : Reads k (readCommaSeparated reader n) fun as => ∀ a ∈ as, Q a := by
  refine Reads.current.bind fun c _ => ?_
  split_ifs
  · exact Returns.pure fun a ha => absurd ha List.not_mem_nil
  · refine hreader.bind fun a ha => (Reads.commaLoop hreader hk hn).bind fun as has => ?_
    apply Returns.pure
    intro b hb
    rcases List.mem_cons.mp hb with rfl | hb
    · exact ha
    · exact has b hb

end Reads

/-- The names among the tokens are the identifiers other than the keyword. -/
theorem isVariable_of_isName {s : Text} (h : IsToken (.str s)) (hname : isName s = true) :
    IsVariable s := by
  rcases h with hidentifier | ⟨c, rfl, hc⟩
  · refine ⟨hidentifier, ?_⟩
    rintro rfl
    cases hname
  · simp [isName, hc] at hname

theorem reads_readParam : Reads k readParam IsVariable := by
  obtain _ | k := k
  · exact Returns.zero _
  apply Reads.pop
  · exact Returns.throw ReadError.noConfusion
  · intro t ht
    cases t with
    | number value => exact Returns.throw ReadError.noConfusion
    | str s =>
      dsimp only
      split_ifs with hname
      · exact Returns.pure (isVariable_of_isName ht hname)
      · exact Returns.throw ReadError.noConfusion

theorem allNamed_iff : ∀ es : List Expr, AllNamed es ↔ ∀ e ∈ es, e.Named
  | [] => by simp [AllNamed]
  | e :: es => by simp [AllNamed, allNamed_iff es]

theorem reads_readCallExpr {reader : ReadM Expr} (hreader : Reads k reader Expr.Named)
    (hk : k ≤ n) (hn : 0 < n) {e : Expr} (he : e.Named) :
    Reads k (readCallExpr reader n e) Expr.Named := by
  induction n generalizing k e with
  | zero => exact absurd hn (Nat.lt_irrefl 0)
  | succ n ih =>
    obtain _ | k := k
    · exact Returns.zero _
    unfold readCallExpr
    apply Reads.ifCurrent
    · obtain _ | k := k
      · exact Returns.zero _
      have hreader' := hreader.mono (Nat.le_succ (k + 1))
      refine (Reads.readCommaSeparated hreader' (by omega) (by omega)).bind fun es hes => ?_
      refine (Reads.expect _).bind fun _ _ => ih hreader' (by omega) (by omega) ?_
      exact ⟨he, (allNamed_iff es).mpr hes⟩
    · exact Returns.pure he

theorem reads_readExpr : Reads n (readExpr n) Expr.Named := by
  induction n with
  | zero => exact Returns.zero _
  | succ n ih =>
    have hempty : n = 0 → ∀ {x : ReadM Expr}, Reads n x Expr.Named := by
      rintro rfl x ts hlt
      exact absurd hlt (Nat.not_lt_zero _)
    have hcalls : ∀ e : Expr, e.Named → Reads n (readCallExpr (readExpr n) n e) Expr.Named := by
      intro e he
      by_cases hn : n = 0
      · exact hempty hn
      · exact reads_readCallExpr ih le_rfl (Nat.pos_of_ne_zero hn) he
    apply Reads.pop
    · exact Returns.throw ReadError.noConfusion
    · intro t ht
      cases t with
      | number value => exact hcalls (.literal value) trivial
      | str s =>
        dsimp only
        split_ifs with hname hlambda hopen
        · exact hcalls (.name s) (isVariable_of_isName ht hname)
        · by_cases hn : n = 0
          · exact hempty hn
          refine (Reads.readCommaSeparated reads_readParam le_rfl (Nat.pos_of_ne_zero hn)).bind
            fun ps hps => (Reads.expect _).bind fun _ _ => ih.bind fun body hbody => ?_
          exact Returns.pure ⟨hps, hbody⟩
        · exact ih.bind fun inner hinner => (Reads.expect _).bind fun _ _ => hcalls inner hinner
        · exact Returns.throw ReadError.noConfusion

/-! ## Whole strings -/

variable {s : Text} {e : Expr}

theorem isToken_of_tokenizes {ts : List Token} (h : Tokenizes s ts) : ∀ t ∈ ts, IsToken t := by
  induction h with
  | done _ => exact fun t ht => absurd ht List.not_mem_nil
  | @next s s' t ts hnext _ ih =>
    have hspec := nextToken_spec s
    rw [hnext] at hspec
    intro u hu
    rcases List.mem_cons.mp hu with rfl | hu
    · exact hspec.2
    · exact ih u hu

/-- The bounds of the model are large enough. -/
theorem read_ne_outOfFuel (s : Text) : read s ≠ .error .outOfFuel := by
  unfold read
  cases htokens : tokenize s with
  | error e =>
    have hne := tokenizeFrom_ne_outOfFuel (Nat.lt_succ_self s.length)
    change tokenize s ≠ _ at hne
    rw [htokens] at hne
    simpa [Bind.bind, Except.bind] using hne
  | ok ts =>
    have hts := isToken_of_tokenizes (tokenizes_of_tokenizeFrom htokens)
    have hreturns := reads_readExpr ts (Nat.lt_succ_self _) hts
    simp only [Bind.bind, Except.bind]
    split_ifs
    · exact fun h => by cases h
    · cases hexpr : readExpr (ts.length + 1) ts with
      | error e =>
        rw [hexpr] at hreturns
        have hne : e ≠ .outOfFuel := hreturns
        simpa using hne
      | ok r => exact fun h => by cases h

/-- What is read has only identifiers for names. -/
theorem named_of_read (h : read s = .ok (some e)) : e.Named := by
  unfold read at h
  cases htokens : tokenize s with
  | error err =>
    rw [htokens] at h
    cases h
  | ok ts =>
    have hts := isToken_of_tokenizes (tokenizes_of_tokenizeFrom htokens)
    have hreturns := reads_readExpr ts (Nat.lt_succ_self _) hts
    rw [htokens] at h
    simp only [Bind.bind, Except.bind] at h
    split_ifs at h
    · cases h
    · cases hexpr : readExpr (ts.length + 1) ts with
      | error err =>
        rw [hexpr] at h
        cases h
      | ok r =>
        rw [hexpr] at h hreturns
        cases h
        exact hreturns.1

theorem read_str_named (floatStr : Text → Text) (hnamed : e.Named) (hfloat : e.hasFloat = false) :
    read (e.str floatStr) = .ok (some e) := by
  have hread := (readsBack e hnamed e.tokens.length le_rfl []).2 (by simp [NotOpen])
  obtain ⟨t, ts, heq, -⟩ := tokens_start e hnamed
  rw [List.append_nil] at hread
  unfold read
  rw [tokenize_str floatStr hnamed hfloat]
  simp only [Bind.bind, Except.bind, hread]
  rw [heq]
  rfl

/-- The text of an expression without floating-point literals is read back as the expression,
if its names are identifiers or if it was read itself. -/
theorem read_str (floatStr : Text → Text) :
    (∀ e : Expr, e.Named → e.hasFloat = false → read (e.str floatStr) = .ok (some e)) ∧
      ∀ (s : Text) (e : Expr), read s = .ok (some e) → e.hasFloat = false →
        read (e.str floatStr) = .ok (some e) :=
  ⟨fun _ hnamed hfloat => read_str_named floatStr hnamed hfloat,
    fun _ _ hread hfloat => read_str_named floatStr (named_of_read hread) hfloat⟩

/-- A lambda expression as an operator, as an operand and as a body. -/
def nestedCalls : Expr :=
  .call (.lambda [['f'], ['x']] (.call (.call (.name ['f']) [.lambda [] (.literal (.int (-5)))])
    [.name ['x'], .literal (.int 10)])) [.lambda [['y']] (.lambda [] (.name ['y']))]

theorem read_str_nestedCalls :
    read (nestedCalls.str id) = .ok (some nestedCalls) ∧
      read ((Expr.call (.name ['g']) []).str id) = .ok (some (.call (.name ['g']) [])) := by
  have hvariable : ∀ c : Char, symbolStart c = true → IsVariable [c] := by
    intro c hc
    exact ⟨⟨c, [], rfl, hc, by simp⟩, by simp [lambdaText]⟩
  have hf := hvariable 'f' (by decide)
  have hx := hvariable 'x' (by decide)
  have hy := hvariable 'y' (by decide)
  have hread : read ['(', 'g', ')', '(', ' ', ')'] = .ok (some (.call (.name ['g']) [])) := rfl
  refine ⟨(read_str id).1 nestedCalls ?_ rfl, (read_str id).2 _ _ hread rfl⟩
  simp [nestedCalls, Expr.Named, AllNamed, hf, hx, hy]

end Courses.PyCombinator
