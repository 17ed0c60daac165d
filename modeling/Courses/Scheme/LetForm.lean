import Courses.Lib.Effects
import Courses.Scheme.Evaluator

/-!
# More fuel

A run that does not run out of fuel has the same result, and leaves the same frames, with any
more fuel: no handler of the interpreter catches the exception of the empty tank.
-/
namespace Courses.Scheme

open Courses.Lib

variable {W α β : Type} {call call' : Calls W} {fuel fuel' : ℕ}

/-- The calls do the same or run out of fuel. -/
structure Calls.Approx (call call' : Calls W) : Prop where
  fuel : call.fuel ≤ call'.fuel
  eval : ∀ expr env, Lib.Approx .outOfFuel (call.eval expr env) (call'.eval expr env)
  apply : ∀ procedure args env,
    Lib.Approx .outOfFuel (call.apply procedure args env) (call'.apply procedure args env)

theorem Calls.Approx.refl (call : Calls W) : call.Approx call :=
  ⟨le_rfl, fun _ _ => Lib.Approx.refl _, fun _ _ _ => Lib.Approx.refl _⟩

open Lib (Approx)

theorem lookupLoop_fuel (frames : List Frame) (symbol : Text) (hle : fuel ≤ fuel') :
    ∀ id, Heap.lookupLoop frames symbol fuel id = .error .outOfFuel ∨
      Heap.lookupLoop frames symbol fuel id = Heap.lookupLoop frames symbol fuel' id := by
  induction fuel generalizing fuel' with
  | zero => exact fun id => .inl rfl
  | succ fuel ih =>
    cases fuel' with
    | zero => omega
    | succ fuel' =>
      intro id
      cases id with
      | none => exact .inr rfl
      | some id =>
        rw [Heap.lookupLoop, Heap.lookupLoop]
        split
        · exact .inr rfl
        · exact ih (by omega) _

theorem approx_lookup (hle : fuel ≤ fuel') (env : Env) (symbol : Text) :
    Approx .outOfFuel (lookup (W := W) fuel env symbol) (lookup fuel' env symbol) := by
  unfold lookup
  apply Approx.bind (Approx.refl _)
  intro id
  apply Approx.bind (Approx.refl _)
  intro h
  obtain hfuel | heq := lookupLoop_fuel h.frames symbol hle (some id)
  · rw [hfuel]
    exact Approx.throw _
  · rw [heq]
    exact Approx.refl _

section Forms

variable (h : call.Approx call') (env : Env)

include h

theorem approx_evalAll (expressions : Obj) :
    Approx .outOfFuel (evalAll call expressions env) (evalAll call' expressions env) := by
  induction expressions with
  | pair first second _ ih =>
    unfold evalAll
    apply Approx.bind (h.eval first env)
    intro val
    exact Approx.ite (Approx.refl _) ih
  | _ => exact Approx.refl _

theorem approx_mapEval (operands : Obj) :
    Approx .outOfFuel (mapEval call operands env) (mapEval call' operands env) := by
  induction operands with
  | pair first second _ ih =>
    unfold mapEval
    apply Approx.bind (h.eval first env)
    intro mapped
    split
    · exact Approx.bind ih fun rest => Approx.refl _
    · exact Approx.bind ih fun rest => Approx.refl _
    · exact Approx.refl _
  | _ => exact Approx.refl _

theorem approx_doDefineForm (expressions : Obj) :
    Approx .outOfFuel (doDefineForm call expressions env) (doDefineForm call' expressions env) := by
  unfold doDefineForm
  refine Approx.bind (Approx.refl _) fun _ => Approx.bind (Approx.refl _) fun target =>
    Approx.bind (Approx.refl _) fun valueExpr => Approx.ite ?_ (Approx.refl _)
  refine Approx.bind (Approx.refl _) fun _ => Approx.bind (Approx.refl _) fun id => ?_
  apply Approx.bind (h.eval valueExpr env)
  intro value
  exact Approx.refl _

theorem approx_doIfForm (expressions : Obj) :
    Approx .outOfFuel (doIfForm call expressions env) (doIfForm call' expressions env) := by
  unfold doIfForm
  refine Approx.bind (Approx.refl _) fun _ => Approx.bind (Approx.refl _) fun predicate =>
    Approx.bind (Approx.refl _) fun branches => Approx.bind (Approx.refl _) fun tbranch =>
      Approx.bind (h.eval predicate env) fun test => ?_
  apply Approx.ite (h.eval tbranch env)
  apply Approx.bind (Approx.refl _)
  intro rest
  refine Approx.ite (Approx.refl _) (Approx.bind (Approx.refl _) fun other => ?_)
  exact h.eval other env

theorem approx_doAndForm (expressions : Obj) :
    Approx .outOfFuel (doAndForm call expressions env) (doAndForm call' expressions env) := by
  induction expressions with
  | pair cur subexpr _ ih =>
    unfold doAndForm
    apply Approx.bind (h.eval cur env)
    intro evaluation
    exact Approx.ite (Approx.ite (Approx.refl _) ih) (Approx.refl _)
  | _ => exact Approx.refl _

theorem approx_doOrForm (expressions : Obj) :
    Approx .outOfFuel (doOrForm call expressions env) (doOrForm call' expressions env) := by
  induction expressions with
  | pair cur subexpr _ ih =>
    unfold doOrForm
    apply Approx.bind (h.eval cur env)
    intro evaluation
    exact Approx.ite (Approx.refl _) ih
  | _ => exact Approx.refl _

theorem approx_condLoop (numClauses : ℕ) (expressions : Obj) (i : ℕ) :
    Approx .outOfFuel (condLoop call numClauses env expressions i)
      (condLoop call' numClauses env expressions i) := by
  induction expressions generalizing i with
  | pair clause expressions _ ih =>
    unfold condLoop
    refine Approx.bind (Approx.refl _) fun _ => Approx.bind (Approx.refl _) fun first =>
      Approx.bind ?_ fun test => Approx.ite ?_ (ih (i + 1))
    · unfold clauseTest
      exact Approx.ite (Approx.refl _) (h.eval first env)
    · apply Approx.bind (Approx.refl _)
      intro body
      exact Approx.ite (Approx.refl _) (approx_evalAll h env body)
  | _ => exact Approx.refl _

theorem approx_letLoop (bindings : Obj) :
    Approx .outOfFuel (letLoop call env bindings) (letLoop call' env bindings) := by
  induction bindings with
  | pair clause bindings _ ih =>
    unfold letLoop
    refine Approx.bind (Approx.refl _) fun _ => Approx.bind (Approx.refl _) fun first =>
      Approx.ite (Approx.refl _) (Approx.bind (Approx.refl _) fun expr => ?_)
    apply Approx.bind (h.eval expr env)
    intro value
    exact Approx.bind ih fun rest => Approx.refl _
  | _ => exact Approx.refl _

theorem approx_doLetForm (expressions : Obj) :
    Approx .outOfFuel (doLetForm call expressions env) (doLetForm call' expressions env) := by
  unfold doLetForm
  refine Approx.bind (Approx.refl _) fun _ => Approx.bind (Approx.refl _) fun bindings =>
    Approx.bind ?_ fun letEnv => ?_
  · unfold makeLetFrame
    apply Approx.ite (Approx.refl _)
    apply Approx.bind (approx_letLoop h env bindings)
    intro clauses
    exact Approx.refl _
  · apply Approx.bind (Approx.refl _)
    intro body
    exact approx_evalAll h letEnv body

theorem approx_doForm (form : SpecialForm) (expressions : Obj) :
    Approx .outOfFuel (doForm call form expressions env) (doForm call' form expressions env) := by
  cases form with
  | and => exact approx_doAndForm h env expressions
  | begin => exact Approx.bind (Approx.refl _) fun _ => approx_evalAll h env expressions
  | cond => exact Approx.bind (Approx.refl _) fun n => approx_condLoop h env n expressions 0
  | define => exact approx_doDefineForm h env expressions
  | «if» => exact approx_doIfForm h env expressions
  | «let» => exact approx_doLetForm h env expressions
  | or => exact approx_doOrForm h env expressions
  | _ => exact Approx.refl _

theorem approx_evalLine (out : Outside W) (file : ℕ) (hle : fuel ≤ fuel') :
    Approx .outOfFuel (evalLine out call file env fuel) (evalLine out call' file env fuel') := by
  induction fuel generalizing fuel' with
  | zero => exact Approx.throw _
  | succ fuel ih =>
    cases fuel' with
    | zero => omega
    | succ fuel' =>
      unfold evalLine
      refine Approx.bind (Approx.refl _) fun s => Approx.ite ?_ (Approx.refl _)
      apply Approx.bind (Approx.refl _)
      intro expression
      exact Approx.bind (h.eval expression env) fun _ => ih (by omega)

/-- A line that runs out of fuel is not gone on from. -/
theorem approx_readEvalPrintLoop (out : Outside W) (file : ℕ) (hle : fuel ≤ fuel') :
    Approx .outOfFuel (readEvalPrintLoop out call file env fuel)
      (readEvalPrintLoop out call' file env fuel') := by
  induction fuel generalizing fuel' with
  | zero => exact Approx.throw _
  | succ fuel ih =>
    cases fuel' with
    | zero => omega
    | succ fuel' =>
      intro s
      have hnext : Approx .outOfFuel (readEvalPrintLoop out call file env fuel)
          (readEvalPrintLoop out call' file env fuel') := ih (by omega)
      have hline : Approx .outOfFuel
          (do external (out.nextLine file); evalLine out call file env fuel)
          (do external (out.nextLine file); evalLine out call' file env fuel') :=
        Approx.bind (Approx.refl _) fun _ => approx_evalLine h env out file (by omega)
      unfold readEvalPrintLoop
      obtain ⟨s', hrun⟩ | hrun := hline s
      · rw [hrun]
        exact .inl ⟨s', rfl⟩
      · rw [← hrun]
        generalize (do external (out.nextLine file); evalLine out call file env fuel : EvalM W Unit)
          s = result
        cases result with
        | ok _ s' => exact hnext s'
        | error e s' =>
          cases hhandling : handling e with
          | goOn => simpa only [hhandling] using hnext s'
          | «return» => simp [hhandling]
          | raise => simp [hhandling]

theorem approx_schemeLoad (out : Outside W) (args : List Obj) :
    Approx .outOfFuel (schemeLoad out call args env) (schemeLoad out call' args env) := by
  unfold schemeLoad
  refine Approx.bind (Approx.refl _) fun (sym, quiet) => Approx.bind (Approx.refl _) fun name =>
    Approx.bind (Approx.refl _) fun file => Approx.bind (Approx.refl _) fun _ => ?_
  apply Approx.bind (approx_readEvalPrintLoop h env out file h.fuel)
  intro _
  exact Approx.refl _

theorem approx_callFn (out : Outside W) (procedure : Primitive) (args : List Obj) :
    Approx .outOfFuel (callFn out call procedure args env)
      (callFn out call' procedure args env) := by
  unfold callFn
  split
  · exact h.eval _ _
  · exact h.eval _ _
  · exact h.apply _ _ _
  · exact approx_schemeLoad h env out args
  · exact Approx.refl _
  · exact Approx.refl _

theorem approx_applyPrimitive (out : Outside W) (procedure : Primitive) (args : Obj) :
    Approx .outOfFuel (applyPrimitive out call procedure args env)
      (applyPrimitive out call' procedure args env) := by
  apply Approx.bind (Approx.refl _)
  intro args s
  unfold catchTypeError
  obtain ⟨s', hrun⟩ | hrun := approx_callFn h env out procedure args s
  · rw [hrun]
    exact .inl ⟨s', rfl⟩
  · rw [hrun]
    exact .inr rfl

theorem approx_applyBody (out : Outside W) (procedure args : Obj) :
    Approx .outOfFuel (applyBody out call procedure args env)
      (applyBody out call' procedure args env) := by
  unfold applyBody
  split
  · exact approx_applyPrimitive h env out _ args
  · refine Approx.ite (Approx.bind (Approx.refl _) fun newEnv => ?_) (Approx.refl _)
    apply Approx.bind (Approx.refl _)
    intro body
    exact approx_evalAll h newEnv body

theorem approx_evalBody (expr : Obj) :
    Approx .outOfFuel (evalBody call expr env) (evalBody call' expr env) := by
  unfold evalBody
  apply Approx.ite (Approx.refl _)
  split
  · exact Approx.ite (approx_lookup h.fuel env _) (Approx.refl _)
  · apply Approx.ite (Approx.refl _)
    split
    · exact approx_doForm h env _ _
    · apply Approx.bind (h.eval _ env)
      intro procedure
      apply Approx.bind (approx_mapEval h env _)
      intro args
      exact h.apply procedure args env
  · exact Approx.refl _

end Forms

theorem calls_approx_succ (out : Outside W) (fuel : ℕ) :
    (calls out fuel).Approx (calls out (fuel + 1)) := by
  induction fuel with
  | zero =>
    exact ⟨Nat.zero_le _, fun _ _ => Approx.throw _, fun _ _ _ => Approx.throw _⟩
  | succ fuel ih =>
    exact ⟨Nat.le_succ fuel, fun expr env => approx_evalBody ih env expr,
      fun procedure args env => approx_applyBody ih env out procedure args⟩

theorem calls_approx (out : Outside W) (hle : fuel ≤ fuel') (expr : Obj) (env : Env) :
    Approx .outOfFuel (schemeEval out fuel expr env) (schemeEval out fuel' expr env) := by
  induction hle with
  | refl => exact Approx.refl _
  | step _ ih => exact ih.trans ((calls_approx_succ out _).eval expr env)

end Courses.Scheme

/-!
# `let` as the application of a `lambda`

A `let` form and the call of the `lambda` form with the same symbols, expressions and body
evaluate the expressions in the same order, make the same frame and evaluate the body in it. The
call needs more fuel, as it makes a procedure first.
-/
namespace Courses.Scheme

open Courses.Lib

variable {W : Type} {out : Outside W} {call call' : Calls W} {env : Env} {h : Heap W}

/-! ## Lists -/

def listOf : List Obj → Obj
  | [] => .nil
  | x :: xs => .pair x (listOf xs)

theorem schemeListp_listOf (xs : List Obj) : schemeListp (listOf xs) = true := by
  induction xs with
  | nil => rfl
  | cons x xs ih => exact ih

theorem restLen_listOf (xs : List Obj) : restLen (listOf xs) = .ok xs.length := by
  induction xs with
  | nil => rfl
  | cons x xs ih =>
    rw [listOf, restLen, ih]
    rfl

theorem pyLen_listOf (xs : List Obj) : pyLen (listOf xs) = .ok xs.length := by
  cases xs with
  | nil => rfl
  | cons x xs => exact restLen_listOf (x :: xs)

theorem checkForm_listOf {xs : List Obj} {min : ℕ} {max : Option ℕ} (hmin : min ≤ xs.length)
    (hmax : ∀ m ∈ max, xs.length ≤ m) : checkForm (listOf xs) min max = .ok () := by
  have hmin : ¬ xs.length < min := by omega
  have hmax : ¬ ∃ m ∈ max, m < xs.length := by
    rintro ⟨m, hm, hlt⟩
    have hle := hmax m hm
    omega
  simp only [checkForm, schemeListp_listOf, pyLen_listOf, bind, Except.bind, hmin, hmax]
  rfl

theorem checkFormalsHelper_listOf {xs : List Text} {used : List Obj}
    (hsymbols : ∀ x ∈ xs, schemeSymbolp (.symbol x)) (hnodup : xs.Nodup)
    (hused : ∀ x ∈ xs, .symbol x ∉ used) :
    checkFormalsHelper (listOf (xs.map .symbol)) used = .ok () := by
  induction xs generalizing used with
  | nil => rfl
  | cons x xs ih =>
    obtain ⟨hsymbol, hsymbols⟩ := List.forall_mem_cons.1 hsymbols
    obtain ⟨hx, hused⟩ := List.forall_mem_cons.1 hused
    obtain ⟨hnot, hnodup⟩ := List.nodup_cons.1 hnodup
    have hfresh : ∀ y ∈ xs, .symbol y ∉ Obj.symbol x :: used := by
      intro y hy
      simp only [List.mem_cons, not_or]
      refine ⟨?_, hused y hy⟩
      intro heq
      simp only [Obj.symbol, Obj.atom.injEq, Token.str.injEq] at heq
      exact hnot (heq ▸ hy)
    have hrest := ih hsymbols hnodup hfresh
    cases xs with
    | nil => simp [listOf, checkFormalsHelper, hsymbol, hx]
    | cons y ys =>
      rw [List.map_cons, listOf, List.map_cons, listOf, checkFormalsHelper,
        if_neg (by simp [hsymbol]), if_neg hx]
      exact hrest

/-! ## The two forms -/

/-- `(x e)` -/
def clause (x : Text × Obj) : Obj := listOf [.symbol x.1, x.2]

/-- `(let ((x₁ e₁) ... (xₙ eₙ)) body ...)` -/
def letForm (xs : List (Text × Obj)) (body : List Obj) : Obj :=
  listOf (.symbol ['l', 'e', 't'] :: listOf (xs.map clause) :: body)

/-- The formals of the `lambda` form. -/
def formals (xs : List (Text × Obj)) : Obj := listOf ((xs.map Prod.fst).map .symbol)

/-- The operands of the call. -/
def operands (xs : List (Text × Obj)) : Obj := listOf (xs.map Prod.snd)

/-- `(lambda (x₁ ... xₙ) body ...)` -/
def lambdaForm (xs : List (Text × Obj)) (body : List Obj) : Obj :=
  listOf (.symbol ['l', 'a', 'm', 'b', 'd', 'a'] :: formals xs :: body)

/-- `((lambda (x₁ ... xₙ) body ...) e₁ ... eₙ)` -/
def lambdaCall (xs : List (Text × Obj)) (body : List Obj) : Obj :=
  listOf (lambdaForm xs body :: xs.map Prod.snd)

variable {xs : List (Text × Obj)} {body : List Obj}

/-- What both forms do: evaluate the expressions, bind the symbols, evaluate the body. -/
def bindAndEval (call call' : Calls W) (xs : List (Text × Obj)) (body : List Obj) (env : Env) :
    EvalM W Obj := do
  let args ← mapEval call (operands xs) env
  let newEnv ← makeChildFrame env (formals xs) args
  evalAll call' (listOf body) newEnv

theorem approx_bindAndEval {call₁ call₂ call₁' call₂' : Calls W} (h : call₁.Approx call₁')
    (h' : call₂.Approx call₂') :
    Approx .outOfFuel (bindAndEval call₁ call₂ xs body env)
      (bindAndEval call₁' call₂' xs body env) := by
  unfold bindAndEval
  apply Approx.bind (approx_mapEval h env _)
  intro args
  apply Approx.bind (Approx.refl _)
  intro newEnv
  exact approx_evalAll h' newEnv _

theorem mapEval_operands (call : Calls W) (e : Obj) (es : List Obj) :
    mapEval call (listOf (e :: es)) env = do
      let mapped ← call.eval e env
      return .pair mapped (← mapEval call (listOf es) env) := by
  cases es with
  | nil => rfl
  | cons e' es => rfl

/-- The loop over the clauses maps the evaluation over their expressions. -/
theorem letLoop_clauses (hsymbols : ∀ x ∈ xs, schemeSymbolp (.symbol x.1)) :
    letLoop call env (listOf (xs.map clause)) = do
      let args ← mapEval call (operands xs) env
      return (formals xs, args) := by
  induction xs with
  | nil => rfl
  | cons x xs ih =>
    obtain ⟨hsymbol, hsymbols⟩ := List.forall_mem_cons.1 hsymbols
    have hcheck : checkForm (listOf [.symbol x.1, x.2]) 2 (some 2) = .ok () :=
      checkForm_listOf le_rfl (by simp)
    rw [← clause] at hcheck
    have hfirst : (clause x).getFirst = .ok (.symbol x.1) := rfl
    have hexpr : (do (← (clause x).getSecond).getFirst) = Except.ok x.2 := rfl
    have hoperands : operands (x :: xs) = listOf (x.2 :: xs.map Prod.snd) := rfl
    rw [List.map_cons, listOf, letLoop, hcheck, hfirst, hexpr, ih hsymbols, hoperands,
      mapEval_operands]
    simp only [fromExcept, pure_bind, hsymbol, Bool.not_true, Bool.false_eq_true, if_false,
      bind_assoc]
    rfl

theorem doLetForm_eq (hsymbols : ∀ x ∈ xs, schemeSymbolp (.symbol x.1)) (hbody : body ≠ []) :
    doLetForm call (listOf (listOf (xs.map clause) :: body)) env =
      bindAndEval call call xs body env := by
  have hlength : 0 < body.length := List.length_pos_iff.2 hbody
  have hcheck : checkForm (listOf (listOf (xs.map clause) :: body)) 2 none = .ok () :=
    checkForm_listOf (Nat.succ_le_succ hlength) (by simp)
  have hfirst : (listOf (listOf (xs.map clause) :: body)).getFirst =
      .ok (listOf (xs.map clause)) := rfl
  have hsecond : (listOf (listOf (xs.map clause) :: body)).getSecond = .ok (listOf body) := rfl
  unfold doLetForm makeLetFrame
  rw [hcheck, hfirst, hsecond]
  simp only [fromExcept, pure_bind, schemeListp_listOf, Bool.not_true, Bool.false_eq_true, if_false,
    letLoop_clauses hsymbols, bind_assoc]
  rfl

theorem evalBody_form {first rest : Obj} (form : SpecialForm) (hlist : schemeListp rest)
    (hform : specialForm first = some form) :
    evalBody call (.pair first rest) env = doForm call form rest env := by
  unfold evalBody
  simp [schemeListp, hlist, hform]

theorem evalBody_call {first rest : Obj} (hlist : schemeListp rest)
    (hform : specialForm first = none) :
    evalBody call (.pair first rest) env = (do
      let procedure ← call.eval first env
      let args ← mapEval call rest env
      call.apply procedure args env) := by
  unfold evalBody
  simp [schemeListp, hlist, hform]

theorem schemeEval_letForm (hsymbols : ∀ x ∈ xs, schemeSymbolp (.symbol x.1)) (hbody : body ≠ [])
    (fuel : ℕ) : schemeEval out (fuel + 1) (letForm xs body) env =
      bindAndEval (calls out fuel) (calls out fuel) xs body env := by
  have hform : evalBody (calls out fuel) (letForm xs body) env =
      doLetForm (calls out fuel) (listOf (listOf (xs.map clause) :: body)) env :=
    evalBody_form .let (schemeListp_listOf (listOf (xs.map clause) :: body)) rfl
  exact hform.trans (doLetForm_eq hsymbols hbody)

theorem doLambdaForm_eq (hsymbols : ∀ x ∈ xs, schemeSymbolp (.symbol x.1))
    (hdistinct : (xs.map Prod.fst).Nodup) (hbody : body ≠ []) :
    doLambdaForm (W := W) (listOf (formals xs :: body)) env =
      pure (.lambda (formals xs) (listOf body) env) := by
  have hlength : 0 < body.length := List.length_pos_iff.2 hbody
  have hcheck : checkForm (listOf (formals xs :: body)) 2 none = .ok () :=
    checkForm_listOf (Nat.succ_le_succ hlength) (by simp)
  have hfirst : (listOf (formals xs :: body)).getFirst = .ok (formals xs) := rfl
  have hsecond : (listOf (formals xs :: body)).getSecond = .ok (listOf body) := rfl
  have hformals : checkFormals (formals xs) = .ok () :=
    checkFormalsHelper_listOf (by simpa using hsymbols) hdistinct (by simp)
  unfold doLambdaForm
  simp only [hcheck, hfirst, hsecond, hformals, fromExcept, pure_bind]

theorem schemeEval_lambdaCall (hsymbols : ∀ x ∈ xs, schemeSymbolp (.symbol x.1))
    (hdistinct : (xs.map Prod.fst).Nodup) (hbody : body ≠ []) (fuel : ℕ) :
    schemeEval out (fuel + 2) (lambdaCall xs body) env =
      bindAndEval (calls out (fuel + 1)) (calls out fuel) xs body env := by
  have hcall : evalBody (calls out (fuel + 1)) (lambdaCall xs body) env = (do
      let procedure ← (calls out (fuel + 1)).eval (lambdaForm xs body) env
      let args ← mapEval (calls out (fuel + 1)) (operands xs) env
      (calls out (fuel + 1)).apply procedure args env) :=
    evalBody_call (schemeListp_listOf (xs.map Prod.snd)) rfl
  have hlambda : (calls out (fuel + 1)).eval (lambdaForm xs body) env =
      pure (.lambda (formals xs) (listOf body) env) :=
    (evalBody_form .lambda (schemeListp_listOf (formals xs :: body)) rfl).trans
      (doLambdaForm_eq hsymbols hdistinct hbody)
  rw [hlambda, pure_bind] at hcall
  exact hcall

/-! ## Evaluation -/

/-- The evaluation ends, like this. -/
def Evaluates (out : Outside W) (expr : Obj) (env : Env) (h : Heap W)
    (r : EStateM.Result PyError (Heap W) Obj) : Prop :=
  (∀ h', r ≠ .error .outOfFuel h') ∧ ∃ fuel, schemeEval out fuel expr env h = r

theorem Evaluates.unique {expr : Obj} {r r' : EStateM.Result PyError (Heap W) Obj}
    (hr : Evaluates out expr env h r) (hr' : Evaluates out expr env h r') : r = r' := by
  obtain ⟨hne, fuel, hrun⟩ := hr
  obtain ⟨hne', fuel', hrun'⟩ := hr'
  have hmax := (calls_approx out (le_max_left fuel fuel') expr env).eq_of hrun hne
  have hmax' := (calls_approx out (le_max_right fuel fuel') expr env).eq_of hrun' hne'
  exact hmax.symm.trans hmax'

/-- A `let` form and the call of the `lambda` form have the same value or exception, and leave
the same frames behind. -/
theorem letForm_iff_lambdaCall (out : Outside W) (hsymbols : ∀ x ∈ xs, schemeSymbolp (.symbol x.1))
    (hdistinct : (xs.map Prod.fst).Nodup) (hbody : body ≠ []) (env : Env) (h : Heap W)
    (r : EStateM.Result PyError (Heap W) Obj) :
    Evaluates out (letForm xs body) env h r ↔ Evaluates out (lambdaCall xs body) env h r := by
  constructor
  · rintro ⟨hne, fuel, hrun⟩
    have hmore := (calls_approx out (Nat.le_succ fuel) _ env).eq_of hrun hne
    rw [schemeEval_letForm hsymbols hbody] at hmore
    refine ⟨hne, fuel + 2, ?_⟩
    rw [schemeEval_lambdaCall hsymbols hdistinct hbody]
    exact (approx_bindAndEval (calls_approx_succ out fuel) (Calls.Approx.refl _)).eq_of hmore hne
  · rintro ⟨hne, fuel, hrun⟩
    have hmore := (calls_approx out (Nat.le_add_right fuel 2) _ env).eq_of hrun hne
    rw [schemeEval_lambdaCall hsymbols hdistinct hbody] at hmore
    refine ⟨hne, fuel + 2, ?_⟩
    rw [schemeEval_letForm hsymbols hbody]
    exact (approx_bindAndEval (Calls.Approx.refl _) (calls_approx_succ out fuel)).eq_of hmore hne

/-- `(let ((x 1)) x)` -/
theorem letForm_iff_lambdaCall_one :
    let out : Outside Unit :=
      ⟨fun _ _ w => (.error .typeError, w), .ok, fun _ w => (.error .valueError, w),
        fun _ w => (.error .eofError, w), fun _ _ => false, fun _ w => (.error .eofError, w)⟩
    let xs : List (Text × Obj) := [(['x'], .atom (.int 1))]
    let one : Frame := ⟨[(.symbol ['x'], .atom (.int 1))], some 0⟩
    Evaluates out (lambdaCall xs [.symbol ['x']]) (.frame 0) ⟨[⟨[], none⟩], [], ()⟩
      (.ok (.atom (.int 1)) ⟨[⟨[], none⟩, one], [], ()⟩) := by
  intro out xs one
  have hlet : Evaluates out (letForm xs [.symbol ['x']]) (.frame 0) ⟨[⟨[], none⟩], [], ()⟩
      (.ok (.atom (.int 1)) ⟨[⟨[], none⟩, one], [], ()⟩) :=
    ⟨by simp, 4, rfl⟩
  exact (letForm_iff_lambdaCall out (by decide) (by decide) (by decide) (.frame 0) _ _).1 hlet

end Courses.Scheme
