import Courses.PyCombinator.RoundTrip

/-!
# The grammar of PyCombinator

The phrases of the grammar with the expressions that they stand for. The reader reads a phrase
whatever follows it, unless what follows makes it an operator, and it reads nothing else.
-/
namespace Courses.PyCombinator

open Courses.Lib.ListParser

/-- The symbols of the grammar: an expression, one that is no lambda expression by itself, the
parts of a list, and the parts of one after the first. -/
inductive Phrase
  | expr (e : Expr)
  | calls (e : Expr)
  | operands (es : List Expr)
  | later (es : List Expr)

/-- The tokens that a symbol derives. -/
inductive Derives : Phrase → List Token → Prop
  | calls {e : Expr} {ts : List Token} : Derives (.calls e) ts → Derives (.expr e) ts
  | lambda {params : List Text} {body : Expr} {ts : List Token} :
    (∀ p ∈ params, IsVariable p) → Derives (.expr body) ts →
      Derives (.expr (.lambda params body)) (.str lambdaText ::
        (commaTokens (params.map fun p => [.str p]) ++ .str [':'] :: ts))
  | literal (value : Number) : Derives (.calls (.literal value)) [.number value]
  | name {s : Text} : IsVariable s → Derives (.calls (.name s)) [.str s]
  | paren {e : Expr} {ts : List Token} : Derives (.expr e) ts →
    Derives (.calls e) (.str ['('] :: (ts ++ [.str [')']]))
  | call {e : Expr} {es : List Expr} {ts us : List Token} : Derives (.calls e) ts →
    Derives (.operands es) us →
      Derives (.calls (.call e es)) (ts ++ .str ['('] :: (us ++ [.str [')']]))
  | noOperands : Derives (.operands []) []
  | operands {e : Expr} {es : List Expr} {ts us : List Token} : Derives (.expr e) ts →
    Derives (.later es) us → Derives (.operands (e :: es)) (ts ++ us)
  | noLater : Derives (.later []) []
  | later {e : Expr} {es : List Expr} {ts us : List Token} : Derives (.expr e) ts →
    Derives (.later es) us → Derives (.later (e :: es)) (.str [','] :: (ts ++ us))

variable {ts us rest p : List Token} {e : Expr} {es : List Expr} {fuel n : ℕ}

/-! ## Phrases are read -/

/-- The first token does not close a list. -/
def Begins (ts : List Token) : Prop := ∃ t ts', ts = t :: ts' ∧ t ≠ .str [':'] ∧ t ≠ .str [')']

theorem Begins.append (h : Begins ts) (us : List Token) : Begins (ts ++ us) := by
  obtain ⟨t, ts', rfl, ht⟩ := h
  exact ⟨t, ts' ++ us, rfl, ht⟩

/-- What the reader does with the tokens of a phrase. -/
def ReadAs : Phrase → List Token → Prop
  | .expr e, ts => Begins ts ∧ ∀ fuel, ts.length ≤ fuel → ∀ rest, NotOpen rest →
    readExpr (fuel + 1) (ts ++ rest) = .ok (e, rest)
  | .calls e, ts => Begins ts ∧ ∀ fuel, ts.length ≤ fuel → ∀ rest, ∃ m, fuel < m + ts.length ∧
    readExpr (fuel + 1) (ts ++ rest) = readCallExpr (readExpr fuel) m e rest
  | .operands es, us => es.length ≤ us.length ∧ ∀ fuel, us.length ≤ fuel → ∃ tss,
    us = commaTokens tss ∧ List.Forall₂ (ReadsPart (readExpr (fuel + 1))) es tss
  | .later es, us => es.length ≤ us.length ∧ ∀ fuel, us.length ≤ fuel → ∃ tss,
    (us = tss.flatMap fun ts => .str [','] :: ts) ∧
      List.Forall₂ (ReadsPart (readExpr (fuel + 1))) es tss

theorem readAs_part (h : ReadAs (.expr e) ts) (hfuel : ts.length ≤ fuel) :
    ReadsPart (readExpr (fuel + 1)) e ts :=
  ⟨h.1, fun rest => h.2 fuel hfuel rest⟩

theorem readAs_lambda {params : List Text} {body : Expr} (hparams : ∀ p ∈ params, IsVariable p)
    (hbody : ReadAs (.expr body) ts) :
    ReadAs (.expr (.lambda params body)) (.str lambdaText ::
      (commaTokens (params.map fun p => [.str p]) ++ .str [':'] :: ts)) := by
  constructor
  · exact ⟨_, _, rfl, by decide, by decide⟩
  · intro fuel hfuel rest hrest
    rw [List.length_cons, List.length_append, List.length_cons] at hfuel
    have hcount := length_params_le params
    obtain _ | fuel := fuel
    · omega
    have hread := readCommaSeparated_tokens (n := fuel + 1) (readsPart_params hparams) (by omega)
      (Or.inl rfl) (ts ++ rest)
    have hlater := hbody.2 fuel (by omega) rest hrest
    rw [List.cons_append, List.append_assoc, List.cons_append, readExpr_lambda, run_bind hread,
      run_bind (run_expect _ _), run_bind hlater]
    rfl

theorem readAs_paren (h : ReadAs (.expr e) ts) :
    ReadAs (.calls e) (.str ['('] :: (ts ++ [.str [')']])) := by
  constructor
  · exact ⟨_, _, rfl, by decide, by decide⟩
  · intro fuel hfuel rest
    simp only [List.length_cons, List.length_append, List.length_nil] at hfuel ⊢
    obtain _ | fuel := fuel
    · omega
    have hclose : NotOpen (.str [')'] :: rest) := by simp [NotOpen]
    have hinner := h.2 fuel (by omega) _ hclose
    refine ⟨fuel + 1, by omega, ?_⟩
    rw [List.cons_append, List.append_assoc, List.singleton_append, readExpr_open,
      run_bind hinner, run_bind (run_expect _ _)]

theorem readAs_call (h : ReadAs (.calls e) ts) (hus : ReadAs (.operands es) us) :
    ReadAs (.calls (.call e es)) (ts ++ .str ['('] :: (us ++ [.str [')']])) := by
  constructor
  · exact h.1.append _
  · intro fuel hfuel rest
    simp only [List.length_cons, List.length_append, List.length_nil] at hfuel ⊢
    obtain ⟨m, hm, hoperator⟩ := h.2 fuel (by omega)
      (.str ['('] :: (us ++ .str [')'] :: rest))
    obtain ⟨t, ts', hts, -⟩ := h.1
    have hpos : 0 < ts.length := by
      rw [hts]
      exact Nat.succ_pos _
    obtain _ | fuel := fuel
    · omega
    have hcount := hus.1
    obtain ⟨tss, rfl, hreads⟩ := hus.2 fuel (by omega)
    obtain _ | m := m
    · omega
    refine ⟨m, by omega, ?_⟩
    rw [List.append_assoc, List.cons_append, List.append_assoc, List.singleton_append, hoperator]
    exact readCallExpr_operands (readCommaSeparated_tokens hreads (by omega) (Or.inr rfl) rest)

theorem Derives.readAs {phrase : Phrase} (h : Derives phrase ts) : ReadAs phrase ts := by
  induction h with
  | calls _ ih =>
    refine ⟨ih.1, fun fuel hfuel rest hrest => ?_⟩
    obtain ⟨m, hm, heq⟩ := ih.2 fuel hfuel rest
    rw [heq, readCallExpr_stop hrest (by omega)]
  | lambda hparams _ ih => exact readAs_lambda hparams ih
  | literal value =>
    refine ⟨⟨_, [], rfl, by simp, by simp⟩, fun fuel _ rest => ⟨fuel, by simp, ?_⟩⟩
    rw [List.singleton_append, readExpr_number]
  | @name s hs =>
    have hcolon := hs.ne_delimiter (c := ':') (by decide)
    have hparen := hs.ne_delimiter (c := ')') (by decide)
    refine ⟨⟨_, [], rfl, by simpa using hcolon, by simpa using hparen⟩,
      fun fuel _ rest => ⟨fuel, by simp, ?_⟩⟩
    rw [List.singleton_append, readExpr_name hs.isName]
  | paren _ ih => exact readAs_paren ih
  | call _ _ ih ihs => exact readAs_call ih ihs
  | noOperands => exact ⟨le_rfl, fun fuel _ => ⟨[], rfl, .nil⟩⟩
  | @operands e es ts us _ _ ih ihs =>
    obtain ⟨t, ts', hts, -⟩ := ih.1
    have hcount := ihs.1
    constructor
    · rw [List.length_append, List.length_cons, hts, List.length_cons]
      omega
    · intro fuel hfuel
      rw [List.length_append] at hfuel
      obtain ⟨tss, rfl, hreads⟩ := ihs.2 fuel (by omega)
      exact ⟨ts :: tss, (commaTokens_cons ts tss).symm, .cons (readAs_part ih (by omega)) hreads⟩
  | noLater => exact ⟨le_rfl, fun fuel _ => ⟨[], rfl, .nil⟩⟩
  | @later e es ts us _ _ ih ihs =>
    have hcount := ihs.1
    constructor
    · rw [List.length_cons, List.length_cons, List.length_append]
      omega
    · intro fuel hfuel
      rw [List.length_cons, List.length_append] at hfuel
      obtain ⟨tss, rfl, hreads⟩ := ihs.2 fuel (by omega)
      exact ⟨ts :: tss, rfl, .cons (readAs_part ih (by omega)) hreads⟩

/-! ## What is read is a phrase -/

/-- The reader takes tokens with `P` for its value, if it returns one. -/
def Takes {α : Type} (reader : ReadM α) (P : α → List Token → List Token → Prop) : Prop :=
  ∀ ts a rest, (∀ t ∈ ts, IsToken t) → reader ts = .ok (a, rest) →
    ∃ p, ts = p ++ rest ∧ P a p rest

section Takes

variable {α : Type} {reader : ReadM α} {P : α → List Token → Prop}

theorem pop_eq_ok {t : Option Token} (h : pop ts = .ok (t, rest)) :
    t = none ∧ ts = [] ∧ rest = [] ∨ ∃ u, t = some u ∧ ts = u :: rest := by
  cases ts with
  | nil =>
    cases h
    exact .inl ⟨rfl, rfl, rfl⟩
  | cons u ts =>
    cases h
    exact .inr ⟨u, rfl, rfl⟩

theorem expect_eq_ok {s : Text} {r : Unit} (h : expect s ts = .ok (r, rest)) :
    ts = .str s :: rest := by
  obtain ⟨t, ts', hpop, h⟩ := run_bind_eq_ok h
  split_ifs at h with hne
  · cases h
  · cases h
    obtain ⟨rfl, -⟩ | ⟨u, rfl, rfl⟩ := pop_eq_ok hpop
    · exact absurd (Option.some_ne_none _).symm hne
    · rw [Option.some.inj (not_not.1 hne)]

theorem current_eq_ok {t : Option Token} (h : current ts = .ok (t, rest)) :
    t = ts.head? ∧ rest = ts := by
  cases h
  exact ⟨rfl, rfl⟩

theorem head?_eq_some {t : Token} (h : ts.head? = some t) : ∃ ts', ts = t :: ts' := by
  cases ts with
  | nil => cases h
  | cons u ts =>
    cases h
    exact ⟨ts, rfl⟩

theorem forall_of_append (h : ∀ t ∈ p ++ rest, IsToken t) : ∀ t ∈ rest, IsToken t :=
  fun t ht => h t (List.mem_append_right p ht)

theorem takes_commaLoop (hreader : Takes reader fun a p _ => P a p) (n : ℕ) :
    Takes (commaLoop reader n) fun as p _ => ∃ tss : List (List Token),
      (p = tss.flatMap fun us => .str [','] :: us) ∧ List.Forall₂ P as tss := by
  induction n with
  | zero =>
    intro ts as rest _ h
    cases h
  | succ n ih =>
    intro ts as rest htokens h
    obtain ⟨t, ts₁, hcurrent, h⟩ := run_bind_eq_ok h
    obtain ⟨rfl, rfl⟩ := current_eq_ok hcurrent
    split_ifs at h with hcomma
    · obtain ⟨ts₁, rfl⟩ := head?_eq_some hcomma
      rw [run_bind (run_pop _ _)] at h
      obtain ⟨a, ts₂, ha, h₁⟩ := run_bind_eq_ok h
      obtain ⟨p, rfl, hp⟩ := hreader ts₁ a ts₂ (forall_of_append (p := [_]) htokens) ha
      obtain ⟨as, ts₃, has, h₂⟩ := run_bind_eq_ok h₁
      cases h₂
      obtain ⟨p', rfl, tss, rfl, hall⟩ := ih ts₂ as rest
        (forall_of_append (p := .str [','] :: p) htokens) has
      exact ⟨.str [','] :: (p ++ tss.flatMap fun us => .str [','] :: us), by simp, p :: tss,
        by simp, .cons hp hall⟩
    · cases h
      exact ⟨[], rfl, [], rfl, .nil⟩

theorem takes_readCommaSeparated (hreader : Takes reader fun a p _ => P a p) (n : ℕ) :
    Takes (readCommaSeparated reader n) fun as p _ => ∃ tss : List (List Token),
      p = commaTokens tss ∧ List.Forall₂ P as tss := by
  intro ts as rest htokens h
  obtain ⟨t, ts₁, hcurrent, h⟩ := run_bind_eq_ok h
  obtain ⟨rfl, rfl⟩ := current_eq_ok hcurrent
  split_ifs at h with hclose
  · cases h
    exact ⟨[], rfl, [], rfl, .nil⟩
  · obtain ⟨a, ts₂, ha, h₁⟩ := run_bind_eq_ok h
    obtain ⟨p, rfl, hp⟩ := hreader ts₁ a ts₂ htokens ha
    obtain ⟨as, ts₃, has, h₂⟩ := run_bind_eq_ok h₁
    cases h₂
    obtain ⟨p', rfl, tss, rfl, hall⟩ := takes_commaLoop hreader n ts₂ as rest
      (forall_of_append htokens) has
    exact ⟨p ++ tss.flatMap fun us => .str [','] :: us, by simp, p :: tss,
      (commaTokens_cons p tss).symm, .cons hp hall⟩

end Takes

theorem takes_readParam : Takes readParam fun s p _ => p = [.str s] ∧ IsVariable s := by
  intro ts s rest htokens h
  obtain ⟨t, ts₁, hpop, h₁⟩ := run_bind_eq_ok h
  obtain ⟨rfl, -⟩ | ⟨u, rfl, rfl⟩ := pop_eq_ok hpop
  · cases h₁
  · cases u with
    | number value => cases h₁
    | str s' =>
      dsimp only at h₁
      split_ifs at h₁ with hname
      · cases h₁
        exact ⟨[.str s], rfl, rfl,
          isVariable_of_isName (htokens _ List.mem_cons_self) hname⟩
      · cases h₁

theorem params_tokens {params : List Text} {tss : List (List Token)}
    (h : List.Forall₂ (fun s p => p = [Token.str s] ∧ IsVariable s) params tss) :
    (tss = params.map fun p => [.str p]) ∧ ∀ p ∈ params, IsVariable p := by
  induction h with
  | nil => exact ⟨rfl, by simp⟩
  | cons hs _ ih => exact ⟨by rw [hs.1, ih.1]; rfl, List.forall_mem_cons.2 ⟨hs.2, ih.2⟩⟩

theorem derives_later {tss : List (List Token)}
    (h : List.Forall₂ (fun e ts => Derives (.expr e) ts) es tss) :
    Derives (.later es) (tss.flatMap fun us => .str [','] :: us) := by
  induction h with
  | nil => exact .noLater
  | cons he _ ih => exact .later he ih

theorem derives_operands {tss : List (List Token)}
    (h : List.Forall₂ (fun e ts => Derives (.expr e) ts) es tss) :
    Derives (.operands es) (commaTokens tss) := by
  cases h with
  | nil => exact .noOperands
  | @cons e ts es tss he hes =>
    rw [commaTokens_cons]
    exact .operands he (derives_later hes)

theorem takes_readCallExpr {reader : ReadM Expr}
    (hreader : Takes reader fun e p _ => Derives (.expr e) p) (n : ℕ) {p₀ : List Token}
    (he : Derives (.calls e) p₀) :
    Takes (readCallExpr reader n e) fun e' p rest =>
      Derives (.calls e') (p₀ ++ p) ∧ NotOpen rest := by
  induction n generalizing e p₀ with
  | zero =>
    intro ts e' rest _ h
    cases h
  | succ n ih =>
    intro ts e' rest htokens h
    obtain ⟨t, ts₁, hcurrent, h⟩ := run_bind_eq_ok h
    obtain ⟨rfl, rfl⟩ := current_eq_ok hcurrent
    split_ifs at h with hopen
    · obtain ⟨ts₁, rfl⟩ := head?_eq_some hopen
      rw [run_bind (run_pop _ _)] at h
      obtain ⟨es, ts₂, hes, h₁⟩ := run_bind_eq_ok h
      obtain ⟨us, rfl, tss, rfl, hall⟩ := takes_readCommaSeparated hreader n ts₁ es ts₂
        (forall_of_append (p := [_]) htokens) hes
      obtain ⟨r, ts₃, hexpect, h₂⟩ := run_bind_eq_ok h₁
      have hts := expect_eq_ok hexpect
      subst hts
      obtain ⟨p, rfl, hp, hrest⟩ := ih (he.call (derives_operands hall)) ts₃ e' rest
        (forall_of_append (p := .str ['('] :: (commaTokens tss ++ [.str [')']]))
          (by simpa using htokens)) h₂
      exact ⟨.str ['('] :: (commaTokens tss ++ .str [')'] :: p), by simp, by simpa using hp, hrest⟩
    · cases h
      exact ⟨[], rfl, by simpa using he, hopen⟩

theorem takes_readExpr (n : ℕ) :
    Takes (readExpr n) fun e p rest => Derives (.expr e) p ∧ NotOpen rest := by
  induction n with
  | zero =>
    intro ts e rest _ h
    cases h
  | succ n ih =>
    have hreader : Takes (readExpr n) fun e p _ => Derives (.expr e) p := by
      intro ts e rest htokens h
      obtain ⟨p, hp, hderives, -⟩ := ih ts e rest htokens h
      exact ⟨p, hp, hderives⟩
    have hcalls : ∀ {e₀ : Expr} {p₀ ts : List Token} {e : Expr} {rest : List Token},
        Derives (.calls e₀) p₀ → (∀ t ∈ ts, IsToken t) →
          readCallExpr (readExpr n) n e₀ ts = .ok (e, rest) →
            ∃ p, p₀ ++ ts = p ++ rest ∧ Derives (.expr e) p ∧ NotOpen rest := by
      intro e₀ p₀ ts e rest h₀ htokens h
      obtain ⟨p, rfl, hp, hrest⟩ := takes_readCallExpr hreader n h₀ ts e rest htokens h
      exact ⟨p₀ ++ p, by simp, .calls hp, hrest⟩
    intro ts e rest htokens h
    rw [readExpr] at h
    obtain ⟨t, ts₁, hpop, h₁⟩ := run_bind_eq_ok h
    obtain ⟨rfl, -⟩ | ⟨u, rfl, rfl⟩ := pop_eq_ok hpop
    · cases h₁
    have htokens₁ : ∀ t ∈ ts₁, IsToken t := forall_of_append (p := [u]) htokens
    cases u with
    | number value => exact hcalls (.literal value) htokens₁ h₁
    | str s =>
      dsimp only at h₁
      split_ifs at h₁ with hname hlambda hparen
      · have hs := isVariable_of_isName (htokens _ List.mem_cons_self) hname
        exact hcalls (.name hs) htokens₁ h₁
      · subst hlambda
        obtain ⟨params, ts₂, hparams, h₂⟩ := run_bind_eq_ok h₁
        obtain ⟨us, rfl, tss, rfl, hall⟩ := takes_readCommaSeparated
          (P := fun s p => p = [.str s] ∧ IsVariable s) takes_readParam n ts₁ params ts₂ htokens₁
          hparams
        obtain ⟨r, ts₃, hexpect, h₃⟩ := run_bind_eq_ok h₂
        have hts := expect_eq_ok hexpect
        subst hts
        obtain ⟨body, ts₄, hbody, h₄⟩ := run_bind_eq_ok h₃
        cases h₄
        obtain ⟨p, rfl, hp, hrest⟩ := ih ts₃ body rest (by
          apply forall_of_append (p := commaTokens tss ++ [.str [':']])
          simpa using htokens₁) hbody
        obtain ⟨htss, hvariables⟩ := params_tokens hall
        refine ⟨_, ?_, .lambda hvariables hp, hrest⟩
        rw [htss]
        simp
      · subst hparen
        obtain ⟨inner, ts₂, hinner, h₂⟩ := run_bind_eq_ok h₁
        obtain ⟨p, rfl, hp, -⟩ := ih ts₁ inner ts₂ htokens₁ hinner
        obtain ⟨r, ts₃, hexpect, h₃⟩ := run_bind_eq_ok h₂
        have hts := expect_eq_ok hexpect
        subst hts
        obtain ⟨q, hq, hderives⟩ := hcalls (.paren hp) (forall_of_append
          (p := p ++ [.str [')']]) (by simpa using htokens₁)) h₃
        exact ⟨q, by rw [← hq]; simp, hderives⟩
      · cases h₁

/-! ## What is accepted -/

/-- What is returned for a string with these tokens, or for one that has no tokens. -/
structure FollowsGrammar (s : Text) (result : Except ReadError (Option Expr)) : Prop where
  none : tokenize s = .ok [] → result = .ok none
  derived : ∀ ts e, tokenize s = .ok ts → Derives (.expr e) ts → result = .ok (some e)
  syntaxError : tokenize s ≠ .ok [] →
    (¬ ∃ ts e, tokenize s = .ok ts ∧ Derives (.expr e) ts) →
      ∃ error, result = .error error ∧ error ≠ .outOfFuel

variable {s : Text}

theorem read_of_derives (hs : tokenize s = .ok (p ++ rest)) (h : Derives (.expr e) p)
    (hrest : NotOpen rest) : read s = .ok (some e) := by
  obtain ⟨⟨t, ts', hp, -⟩, hreads⟩ := h.readAs
  have hne : (p ++ rest).isEmpty = false := by simp [hp]
  have hread := hreads (p ++ rest).length (by simp) rest hrest
  rw [read, hs]
  simp only [bind, Except.bind, hne, hread]
  rfl

/-- The reader stops after an expression, whatever follows other than an opening parenthesis. -/
theorem read_followsGrammar_iff (s : Text) :
    FollowsGrammar s (read s) ↔
      ¬ ∃ e p rest, tokenize s = .ok (p ++ rest) ∧ Derives (.expr e) p ∧ rest ≠ [] ∧
        NotOpen rest := by
  constructor
  · rintro hfollows ⟨e, p, rest, hs, hp, hne, hrest⟩
    have hread := read_of_derives hs hp hrest
    obtain ⟨⟨t, ts', hpt, -⟩, hreads⟩ := hp.readAs
    have hsome : tokenize s ≠ .ok [] := by
      rw [hs, hpt]
      simp
    have hwhole : ¬ ∃ ts e, tokenize s = .ok ts ∧ Derives (.expr e) ts := by
      rintro ⟨ts, e', hts, he'⟩
      rw [hs] at hts
      cases hts
      have hall := he'.readAs.2 (p ++ rest).length le_rfl [] (by simp [NotOpen])
      rw [List.append_nil, hreads (p ++ rest).length (by simp) rest hrest] at hall
      cases hall
      exact hne rfl
    obtain ⟨error, herror, -⟩ := hfollows.syntaxError hsome hwhole
    rw [hread] at herror
    cases herror
  · intro hwhole
    constructor
    · intro hs
      rw [read, hs]
      rfl
    · intro ts e hs he
      have hs : tokenize s = .ok (ts ++ []) := by simpa using hs
      exact read_of_derives hs he (by simp [NotOpen])
    · intro hsome hnot
      have hfuel := read_ne_outOfFuel s
      cases hread : read s with
      | error error =>
        rw [hread] at hfuel
        exact ⟨error, rfl, fun heq => hfuel (by rw [heq])⟩
      | ok result =>
        rw [read] at hread
        cases hs : tokenize s with
        | error error =>
          rw [hs] at hread
          cases hread
        | ok ts =>
          have hne : ts ≠ [] := by
            rintro rfl
            exact hsome hs
          have hempty : ts.isEmpty = false := by simpa using hne
          rw [hs] at hread
          simp only [bind, Except.bind, hempty] at hread
          cases hexpr : readExpr (ts.length + 1) ts with
          | error error =>
            rw [hexpr] at hread
            cases hread
          | ok r =>
            obtain ⟨e, rest⟩ := r
            have htokens := isToken_of_tokenizes (tokenizes_of_tokenizeFrom hs)
            obtain ⟨p, rfl, hp, hrest⟩ := takes_readExpr _ ts e rest htokens hexpr
            by_cases hnil : rest = []
            · subst hnil
              exact absurd ⟨_, e, by simpa using hs, hp⟩ hnot
            · exact absurd ⟨e, p, rest, hs, hp, hnil, hrest⟩ hwhole

/-- The second number is not read. -/
theorem read_ignores_rest : ¬ ∀ s : Text, FollowsGrammar s (read s) := by
  intro h
  have hs : tokenize ['1', ' ', '2'] = .ok [.number (.int 1), .number (.int 2)] := by rfl
  have hnot : ¬ ∃ ts e, tokenize ['1', ' ', '2'] = .ok ts ∧ Derives (.expr e) ts := by
    rintro ⟨ts, e, hts, he⟩
    rw [hs] at hts
    cases hts
    have hall := he.readAs.2 2 (by simp) [] (by simp [NotOpen])
    have hone := (Derives.calls (.literal (.int 1))).readAs.2 2 (by simp) [.number (.int 2)]
      (by simp [NotOpen])
    rw [List.singleton_append] at hone
    rw [List.append_nil, hone] at hall
    cases hall
  obtain ⟨error, herror, -⟩ := (h ['1', ' ', '2']).syntaxError (by rw [hs]; simp) hnot
  have hs : tokenize ['1', ' ', '2'] = .ok ([.number (.int 1)] ++ [.number (.int 2)]) := hs
  have hread := read_of_derives hs (.calls (.literal (.int 1))) (by simp [NotOpen])
  rw [hread] at herror
  cases herror

end Courses.PyCombinator
