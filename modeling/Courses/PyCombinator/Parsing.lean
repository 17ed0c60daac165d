import Courses.PyCombinator.Printing

/-!
# Reading tokens back

Before a token other than an opening parenthesis, the reader takes exactly the tokens of
an expression. Before one, an expression that is no lambda expression becomes the operator
of the calls that follow.
-/
namespace Courses.PyCombinator

open Courses.Lib.ListParser

variable {ts ts' rest : List Token} {s : Text} {fuel n : ℕ} {e : Expr}

/-! ## The operations of the buffer -/

section Run

variable {α : Type} {a : α} {reader : ReadM α}

theorem run_current (ts : List Token) : current ts = .ok (ts.head?, ts) := rfl

theorem run_pop (t : Token) (ts : List Token) : pop (t :: ts) = .ok (some t, ts) := rfl

theorem run_expect (s : Text) (ts : List Token) : expect s (.str s :: ts) = .ok ((), ts) := by
  unfold expect
  rw [run_bind (run_pop _ _), if_neg (not_not.mpr rfl)]
  rfl

/-! ## Parts between commas -/

/-- The next token does not make what was read an operator. -/
def NotOpen (rest : List Token) : Prop := rest.head? ≠ some (.str ['('])

/-- The reader takes exactly `ts` for `a`, and `ts` does not begin with a closing token. -/
def ReadsPart (reader : ReadM α) (a : α) (ts : List Token) : Prop :=
  (∃ t ts', ts = t :: ts' ∧ t ≠ .str [':'] ∧ t ≠ .str [')']) ∧
    ∀ rest, NotOpen rest → reader (ts ++ rest) = .ok (a, rest)

theorem commaTokens_cons (x : List Token) (xs : List (List Token)) :
    commaTokens (x :: xs) = x ++ xs.flatMap fun ts => .str [','] :: ts := by
  induction xs generalizing x with
  | nil => simp [commaTokens]
  | cons y xs ih => simp [commaTokens, ih]

theorem notOpen_later (xss : List (List Token)) (hclose : s ≠ ['(']) (rest : List Token) :
    NotOpen ((xss.flatMap fun ts => .str [','] :: ts) ++ .str s :: rest) := by
  cases xss with
  | nil => simpa [NotOpen] using hclose
  | cons x xss => simp [NotOpen]

theorem commaLoop_later {as : List α} {tss : List (List Token)}
    (h : List.Forall₂ (ReadsPart reader) as tss) (hn : as.length < n) (hclose : s ≠ ['('])
    (hcomma : s ≠ [',']) (rest : List Token) :
    commaLoop reader n ((tss.flatMap fun ts => .str [','] :: ts) ++ .str s :: rest) =
      .ok (as, .str s :: rest) := by
  induction h generalizing n with
  | nil =>
    obtain _ | n := n
    · exact absurd hn (Nat.not_lt_zero _)
    have hhead : (Token.str s :: rest).head? ≠ some (.str [',']) := by simpa using hcomma
    unfold commaLoop
    rw [List.flatMap_nil, List.nil_append, run_bind (run_current _), if_neg hhead]
    rfl
  | @cons a ts as tss ha has ih =>
    obtain _ | n := n
    · exact absurd hn (Nat.not_lt_zero _)
    have hpart := ha.2 _ (notOpen_later tss hclose rest)
    have hlater := ih (n := n) (Nat.lt_of_succ_lt_succ hn)
    unfold commaLoop
    rw [List.flatMap_cons, List.cons_append, List.cons_append, List.append_assoc,
      run_bind (run_current _), if_pos List.head?_cons, run_bind (run_pop _ _), run_bind hpart,
      run_bind hlater]
    rfl

theorem readCommaSeparated_tokens {as : List α} {tss : List (List Token)}
    (h : List.Forall₂ (ReadsPart reader) as tss) (hn : as.length ≤ n)
    (hclose : s = [':'] ∨ s = [')']) (rest : List Token) :
    readCommaSeparated reader n (commaTokens tss ++ .str s :: rest) = .ok (as, .str s :: rest) := by
  have hopen : s ≠ ['('] := by rcases hclose with rfl | rfl <;> decide
  have hcomma : s ≠ [','] := by rcases hclose with rfl | rfl <;> decide
  unfold readCommaSeparated
  cases h with
  | nil =>
    have hhead : (Token.str s :: rest).head? = some (.str [':']) ∨
        (Token.str s :: rest).head? = some (.str [')']) := by simpa using hclose
    rw [commaTokens, List.nil_append, run_bind (run_current _), if_pos hhead]
    rfl
  | @cons a ts as tss ha has =>
    have hpart := ha.2 _ (notOpen_later tss hopen rest)
    have hlater := commaLoop_later has (n := n) hn hopen hcomma rest
    obtain ⟨⟨t, ts', rfl, hcolon, hparen⟩, -⟩ := ha
    have hhead : ¬ ((t :: ts' ++ ((tss.flatMap fun ts => .str [','] :: ts) ++
        .str s :: rest)).head? = some (.str [':']) ∨
        (t :: ts' ++ ((tss.flatMap fun ts => .str [','] :: ts) ++
          .str s :: rest)).head? = some (.str [')'])) := by
      simp [hcolon, hparen]
    rw [commaTokens_cons, List.append_assoc, run_bind (run_current _), if_neg hhead,
      run_bind hpart, run_bind hlater]
    rfl

end Run

/-! ## Names -/

theorem IsVariable.isName (h : IsVariable s) : isName s = true := by
  obtain ⟨⟨c, tail, rfl, hstart, -⟩, hne⟩ := h
  cases tail with
  | nil =>
    have hdelimiter : delimiter c = false := by
      by_contra hcon
      rw [Bool.not_eq_false] at hcon
      simp only [delimiter, List.contains_iff_mem, List.mem_cons, List.not_mem_nil, or_false]
        at hcon
      rcases hcon with rfl | rfl | rfl | rfl <;> exact absurd hstart (by decide)
    simp [PyCombinator.isName, hdelimiter]
  | cons d tail => simpa [PyCombinator.isName] using hne

theorem IsVariable.ne_delimiter {c : Char} (h : IsVariable s) (hc : symbolStart c = false) :
    s ≠ [c] := by
  rintro rfl
  obtain ⟨⟨d, tail, heq, hstart, -⟩, -⟩ := h
  cases heq
  rw [hstart] at hc
  cases hc

theorem readsPart_param (h : IsVariable s) : ReadsPart readParam s [.str s] := by
  have hcolon := h.ne_delimiter (c := ':') (by decide)
  have hparen := h.ne_delimiter (c := ')') (by decide)
  refine ⟨⟨_, [], rfl, by simpa using hcolon, by simpa using hparen⟩, fun rest _ => ?_⟩
  unfold readParam
  rw [List.singleton_append, run_bind (run_pop _ _)]
  simp only [h.isName, if_true]
  rfl

/-! ## Calls -/

section Calls

variable {reader : ReadM Expr} {operands : List Expr}

theorem readCallExpr_stop (h : NotOpen rest) (hn : 0 < n) :
    readCallExpr reader n e rest = .ok (e, rest) := by
  obtain _ | n := n
  · exact absurd hn (Nat.not_lt_zero _)
  unfold readCallExpr
  rw [run_bind (run_current _), if_neg h]
  rfl

theorem readCallExpr_operands
    (h : readCommaSeparated reader n ts = .ok (operands, .str [')'] :: rest)) :
    readCallExpr reader (n + 1) e (.str ['('] :: ts) =
      readCallExpr reader n (.call e operands) rest := by
  rw [readCallExpr.eq_def]
  dsimp only
  rw [run_bind (run_current _), if_pos List.head?_cons, run_bind (run_pop _ _), run_bind h,
    run_bind (run_expect _ _)]

end Calls

/-! ## Expressions -/

theorem length_le_commaTokens (ts : List Token) (tss : List (List Token)) :
    ts.length ≤ (commaTokens (ts :: tss)).length ∧
      (commaTokens tss).length ≤ (commaTokens (ts :: tss)).length := by
  cases tss with
  | nil => simp [commaTokens]
  | cons us tss =>
    simp only [commaTokens, List.length_append]
    omega

theorem length_le_length_commaTokens {tss : List (List Token)} (h : ∀ ts ∈ tss, ts ≠ []) :
    tss.length ≤ (commaTokens tss).length := by
  induction tss with
  | nil => exact Nat.zero_le _
  | cons ts tss ih =>
    have hpos := List.length_pos_iff.mpr (h ts List.mem_cons_self)
    have hrest := ih fun us hus => h us (List.mem_cons_of_mem _ hus)
    cases tss with
    | nil => simpa [commaTokens, Nat.succ_le_iff] using hpos
    | cons us tss =>
      simp only [commaTokens, List.length_append, List.length_cons, List.length_nil] at hrest ⊢
      omega

theorem tokens_lambda (parameters : List Text) (body : Expr) :
    (Expr.lambda parameters body).tokens = .str lambdaText ::
      (commaTokens (parameters.map fun p => [.str p]) ++ .str [':'] :: body.tokens) := by
  simp [Expr.tokens]

theorem tokens_call_lambda {operator : Expr} (h : operator.isLambda = true)
    (operands : List Expr) :
    (Expr.call operator operands).tokens = .str ['('] :: (operator.tokens ++ .str [')'] ::
      .str ['('] :: (commaTokens (tokenLists operands) ++ [.str [')']])) := by
  simp [Expr.tokens, h]

theorem tokens_call {operator : Expr} (h : operator.isLambda = false) (operands : List Expr) :
    (Expr.call operator operands).tokens =
      operator.tokens ++ .str ['('] :: (commaTokens (tokenLists operands) ++ [.str [')']]) := by
  simp [Expr.tokens, h]

/-- An expression begins with a number, a name, the keyword or an opening parenthesis. -/
theorem tokens_start : ∀ e : Expr, e.Named →
    ∃ t ts', e.tokens = t :: ts' ∧ t ≠ .str [':'] ∧ t ≠ .str [')']
  | .literal value, _ => ⟨.number value, [], rfl, by simp, by simp⟩
  | .name s, hnamed => by
    have hcolon := hnamed.ne_delimiter (c := ':') (by decide)
    have hparen := hnamed.ne_delimiter (c := ')') (by decide)
    exact ⟨.str s, [], rfl, by simpa using hcolon, by simpa using hparen⟩
  | .lambda parameters body, _ =>
    ⟨_, _, tokens_lambda parameters body, by decide, by decide⟩
  | .call operator operands, hnamed => by
    cases hlambda : operator.isLambda with
    | true => exact ⟨_, _, tokens_call_lambda hlambda operands, by decide, by decide⟩
    | false =>
      obtain ⟨t, ts', heq, ht⟩ := tokens_start operator hnamed.1
      have hall := tokens_call hlambda operands
      rw [heq] at hall
      exact ⟨t, _, hall, ht⟩

theorem forall_tokenLists_ne_nil : ∀ {es : List Expr}, AllNamed es → ∀ ts ∈ tokenLists es, ts ≠ []
  | [], _, _, hts => absurd hts List.not_mem_nil
  | _ :: _, hnamed, ts, hts => by
    rcases List.mem_cons.mp hts with rfl | hts
    · obtain ⟨t, ts', heq, -⟩ := tokens_start _ hnamed.1
      rw [heq]
      exact List.cons_ne_nil _ _
    · exact forall_tokenLists_ne_nil hnamed.2 ts hts

theorem length_tokenLists : ∀ es : List Expr, (tokenLists es).length = es.length
  | [] => rfl
  | _ :: es => congrArg (· + 1) (length_tokenLists es)

theorem length_operands_le {es : List Expr} (h : AllNamed es) :
    es.length ≤ (commaTokens (tokenLists es)).length := by
  rw [← length_tokenLists]
  exact length_le_length_commaTokens (forall_tokenLists_ne_nil h)

theorem length_params_le (parameters : List Text) :
    parameters.length ≤ (commaTokens (parameters.map fun p => [.str p])).length := by
  rw [← List.length_map fun p => [Token.str p]]
  apply length_le_length_commaTokens
  intro ts hts
  obtain ⟨p, -, rfl⟩ := List.mem_map.mp hts
  exact List.cons_ne_nil _ _

theorem readsPart_params {parameters : List Text} (h : ∀ p ∈ parameters, IsVariable p) :
    List.Forall₂ (ReadsPart readParam) parameters (parameters.map fun p => [.str p]) := by
  induction parameters with
  | nil => exact .nil
  | cons p ps ih =>
    exact .cons (readsPart_param (h p List.mem_cons_self))
      (ih fun q hq => h q (List.mem_cons_of_mem _ hq))

/-! ### What the first token decides -/

theorem readExpr_number (value : Number) (ts : List Token) :
    readExpr (n + 1) (.number value :: ts) = readCallExpr (readExpr n) n (.literal value) ts := rfl

theorem readExpr_name (h : isName s = true) (ts : List Token) :
    readExpr (n + 1) (.str s :: ts) = readCallExpr (readExpr n) n (.name s) ts := by
  rw [readExpr.eq_def]
  dsimp only
  rw [run_bind (run_pop _ _)]
  simp only [h, if_true]

theorem readExpr_lambda (ts : List Token) :
    readExpr (n + 1) (.str lambdaText :: ts) = (do
      let params ← readCommaSeparated readParam n
      expect [':']
      let body ← readExpr n
      return .lambda params body : ReadM Expr) ts := rfl

theorem readExpr_open (ts : List Token) :
    readExpr (n + 1) (.str ['('] :: ts) = (do
      let inner ← readExpr n
      expect [')']
      readCallExpr (readExpr n) n inner : ReadM Expr) ts := rfl

/-- The operands and the closing parenthesis after them make a call. -/
theorem readCallExpr_call {operands : List Expr} {reader : ReadM Expr}
    (hreads : List.Forall₂ (ReadsPart reader) operands (tokenLists operands))
    (hn : operands.length ≤ n) (e : Expr) (rest : List Token) :
    readCallExpr reader (n + 1) e
        (.str ['('] :: (commaTokens (tokenLists operands) ++ .str [')'] :: rest)) =
      readCallExpr reader n (.call e operands) rest :=
  readCallExpr_operands (readCommaSeparated_tokens hreads hn (Or.inr rfl) rest)

/-- What is read after the tokens of an expression: the calls of it, unless it is a lambda
expression, which takes all it can. -/
def ReadsBack (fuel : ℕ) (e : Expr) : Prop :=
  ∀ rest, (e.isLambda = false → ∃ m, fuel < m + e.tokens.length ∧
      readExpr (fuel + 1) (e.tokens ++ rest) = readCallExpr (readExpr fuel) m e rest) ∧
    (NotOpen rest → readExpr (fuel + 1) (e.tokens ++ rest) = .ok (e, rest))

/-- For an expression that is no lambda expression the first part is enough. -/
theorem readsBack_of_calls (hlen : e.tokens.length ≤ fuel)
    (h : ∀ rest, ∃ m, fuel < m + e.tokens.length ∧
      readExpr (fuel + 1) (e.tokens ++ rest) = readCallExpr (readExpr fuel) m e rest) :
    ReadsBack fuel e := by
  intro rest
  refine ⟨fun _ => h rest, fun hrest => ?_⟩
  obtain ⟨m, hm, heq⟩ := h rest
  rw [heq, readCallExpr_stop hrest (by omega)]

mutual

theorem readsBack : ∀ e : Expr, e.Named → ∀ fuel, e.tokens.length ≤ fuel → ReadsBack fuel e
  | .literal value, _, fuel, hlen => by
    refine readsBack_of_calls hlen fun rest => ⟨fuel, by simp [Expr.tokens], ?_⟩
    rw [Expr.tokens, List.singleton_append, readExpr_number]
  | .name s, hnamed, fuel, hlen => by
    refine readsBack_of_calls hlen fun rest => ⟨fuel, by simp [Expr.tokens], ?_⟩
    have hname : isName s = true := IsVariable.isName hnamed
    rw [Expr.tokens, List.singleton_append, readExpr_name hname]
  | .lambda parameters body, hnamed, fuel, hlen => by
    intro rest
    refine ⟨fun hlambda => Bool.noConfusion hlambda, fun hrest => ?_⟩
    rw [tokens_lambda, List.length_cons, List.length_append, List.length_cons] at hlen
    have hcount := length_params_le parameters
    obtain _ | fuel := fuel
    · omega
    have hparams := readCommaSeparated_tokens (n := fuel + 1) (readsPart_params hnamed.1)
      (by omega) (Or.inl rfl) (body.tokens ++ rest)
    have hbody := (readsBack body hnamed.2 fuel (by omega) rest).2 hrest
    rw [tokens_lambda, List.cons_append, List.append_assoc, List.cons_append, readExpr_lambda,
      run_bind hparams, run_bind (run_expect _ _), run_bind hbody]
    rfl
  | .call operator operands, hnamed, fuel, hlen => by
    refine readsBack_of_calls hlen fun rest => ?_
    have hcount := length_operands_le hnamed.2
    cases hlambda : operator.isLambda with
    | true =>
      rw [tokens_call_lambda hlambda] at hlen ⊢
      simp only [List.length_cons, List.length_append, List.length_nil] at hlen ⊢
      obtain _ | fuel := fuel
      · omega
      have hoperands := readsBack_list operands hnamed.2 fuel (by omega)
      have hclose : NotOpen (.str [')'] :: .str ['('] ::
          (commaTokens (tokenLists operands) ++ .str [')'] :: rest)) := by simp [NotOpen]
      have hoperator := (readsBack operator hnamed.1 fuel (by omega) _).2 hclose
      refine ⟨fuel, by omega, ?_⟩
      have hassoc : operator.tokens ++ .str [')'] :: .str ['('] ::
          (commaTokens (tokenLists operands) ++ [.str [')']]) ++ rest =
          operator.tokens ++ .str [')'] :: .str ['('] ::
            (commaTokens (tokenLists operands) ++ .str [')'] :: rest) := by simp
      rw [List.cons_append, hassoc, readExpr_open, run_bind hoperator, run_bind (run_expect _ _)]
      exact readCallExpr_call hoperands (by omega) operator rest
    | false =>
      rw [tokens_call hlambda] at hlen ⊢
      simp only [List.length_cons, List.length_append, List.length_nil] at hlen ⊢
      obtain ⟨m, hm, hoperator⟩ := (readsBack operator hnamed.1 fuel (by omega)
        (.str ['('] :: (commaTokens (tokenLists operands) ++ .str [')'] :: rest))).1 hlambda
      obtain _ | fuel := fuel
      · omega
      have hoperands := readsBack_list operands hnamed.2 fuel (by omega)
      obtain _ | m := m
      · omega
      refine ⟨m, by omega, ?_⟩
      rw [List.append_assoc, List.cons_append, List.append_assoc, List.singleton_append, hoperator]
      exact readCallExpr_call hoperands (by omega) operator rest

theorem readsBack_list : ∀ es : List Expr, AllNamed es → ∀ fuel,
    (commaTokens (tokenLists es)).length ≤ fuel →
      List.Forall₂ (ReadsPart (readExpr (fuel + 1))) es (tokenLists es)
  | [], _, _, _ => .nil
  | e :: es, hnamed, fuel, hlen => by
    have hle := length_le_commaTokens e.tokens (tokenLists es)
    change (commaTokens (e.tokens :: tokenLists es)).length ≤ fuel at hlen
    have he := readsBack e hnamed.1 fuel (hle.1.trans hlen)
    exact .cons ⟨tokens_start e hnamed.1, fun rest => (he rest).2⟩
      (readsBack_list es hnamed.2 fuel (hle.2.trans hlen))

end

end Courses.PyCombinator
