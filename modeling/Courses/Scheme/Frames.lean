import Courses.Scheme.Evaluator

/-!
# Which frames a call changes

A frame that existed before a call of a user-defined procedure is as it was when the call ends,
however it ends. The body is evaluated in a frame that the call makes, and every environment that
the evaluation passes on is that frame, one made later, or no frame at all; the frame that a
lambda procedure carries only becomes the parent of a new one.
-/
namespace Courses.Scheme

open Courses.Lib

variable {W α β : Type} {old : ℕ}

/-! ## The relation -/

/-- The first `old` frames stay as they are, and every `define` is on a later one. -/
structure KeepsFrames (old : ℕ) (h h' : Heap W) : Prop where
  le_length : old ≤ h'.frames.length
  frames : ∀ i < old, h'.frames[i]? = h.frames[i]?
  defines : ∃ new, h'.defines = new ++ h.defines ∧ ∀ id ∈ new, old ≤ id

def KeepsOld (old : ℕ) (h h' : Heap W) : Prop := old ≤ h.frames.length → KeepsFrames old h h'

instance : Std.Refl (KeepsOld (W := W) old) :=
  ⟨fun _ hle => ⟨hle, fun _ _ => rfl, [], by simp⟩⟩

instance : IsTrans (Heap W) (KeepsOld old) := by
  constructor
  intro h₁ h₂ h₃ h₁₂ h₂₃ hle
  have hfirst := h₁₂ hle
  have hsecond := h₂₃ hfirst.le_length
  obtain ⟨new, hnew, hold⟩ := hfirst.defines
  obtain ⟨new', hnew', hold'⟩ := hsecond.defines
  constructor
  · exact hsecond.le_length
  · intro i hi
    rw [hsecond.frames i hi, hfirst.frames i hi]
  · use new' ++ new
    constructor
    · rw [hnew', hnew, List.append_assoc]
    · intro id hid
      cases List.mem_append.1 hid with
      | inl hid => exact hold' id hid
      | inr hid => exact hold id hid

/-- An environment that a call may pass on: it is not one of the first `old` frames. -/
def Env.New (old : ℕ) : Env → Prop
  | .frame id => old ≤ id
  | .object => True

/-! ## Steps -/

theorem keeps_define {id : ℕ} (hid : old ≤ id) (symbol value : Obj) (h : Heap W) :
    KeepsOld old h (h.define id symbol value) := by
  intro hle
  constructor
  · simpa [Heap.define] using hle
  · intro i hi
    have hne : id ≠ i := by omega
    simp [Heap.define, List.getElem?_modify_ne, hne]
  · exact ⟨[id], rfl, by simpa using hid⟩

theorem keepsFrames_push {h : Heap W} (hle : old ≤ h.frames.length) (f : Frame) :
    KeepsFrames old h (h.push f) := by
  constructor
  · simp only [Heap.push, List.length_append]
    omega
  · intro i hi
    rw [Heap.push, List.getElem?_append_left (by omega)]
  · exact ⟨[], rfl, by simp⟩

theorem keeps_external (f : W → Except PyError α × W) : Effect (KeepsOld old) (external f) := by
  intro h hle
  unfold external
  split
  · exact ⟨hle, fun _ _ => rfl, [], by simp [finalState]⟩
  · exact ⟨hle, fun _ _ => rfl, [], by simp [finalState]⟩

theorem keeps_fromExcept (x : Except PyError α) :
    Effect (KeepsOld (W := W) old) (fromExcept x) := by
  cases x with
  | ok a => exact Effect.pure a
  | error e => exact Effect.throw e

theorem keeps_lookup (fuel : ℕ) (env : Env) (symbol : Text) :
    Effect (KeepsOld (W := W) old) (lookup fuel env symbol) := by
  unfold lookup
  apply Effect.bind
  · cases env with
    | frame id => exact Effect.pure id
    | object => exact Effect.throw _
  · intro id
    exact Effect.bind Effect.get fun h => keeps_fromExcept _

/-- A method of `Frame` is found on a frame only. -/
theorem keeps_frameId_bind {env : Env} {f : ℕ → EvalM W β}
    (hf : ∀ id, env = .frame id → Effect (KeepsOld old) (f id)) :
    Effect (KeepsOld old) (env.frameId >>= f) := by
  cases env with
  | frame id => exact hf id rfl
  | object => exact Effect.throw PyError.attributeError

/-- Making a child frame changes nothing and fails, or adds a frame. -/
theorem makeChildFrame_cases (env : Env) (formals vals : Obj) (h : Heap W) :
    (∃ e, makeChildFrame env formals vals h = .error e h) ∨
      ∃ f, makeChildFrame env formals vals h = .ok (.frame h.frames.length) (h.push f) := by
  cases env with
  | object => exact Or.inl ⟨.attributeError, rfl⟩
  | frame id =>
    cases hbindings : childBindings formals vals with
    | error e =>
      left
      use e
      unfold makeChildFrame
      rw [hbindings]
      rfl
    | ok bindings =>
      right
      use ⟨bindings, some id⟩
      unfold makeChildFrame
      rw [hbindings]
      rfl

/-- What follows the making of a frame may take it for a new one, whatever its parent. -/
theorem keeps_makeChildFrame_bind {env : Env} {formals vals : Obj} {f : Env → EvalM W β}
    (hf : ∀ env', env'.New old → Effect (KeepsOld old) (f env')) :
    Effect (KeepsOld old) (makeChildFrame env formals vals >>= f) := by
  intro h hle
  change KeepsFrames old h (finalState (EStateM.bind _ f h))
  unfold EStateM.bind
  obtain ⟨e, hrun⟩ | ⟨child, hrun⟩ := makeChildFrame_cases env formals vals h
  · rw [hrun]
    exact Std.Refl.refl (r := KeepsOld old) h hle
  · rw [hrun]
    have hpush := keepsFrames_push hle child
    exact trans_of (KeepsOld old) (fun _ => hpush) (hf (.frame h.frames.length) hle _) hle

/-! ## The evaluator -/

/-- The calls of a run keep the first `old` frames when they are given a new environment. -/
structure Calls.Keep (old : ℕ) (call : Calls W) : Prop where
  eval : ∀ expr env, env.New old → Effect (KeepsOld old) (call.eval expr env)
  apply : ∀ procedure args env, env.New old → Effect (KeepsOld old) (call.apply procedure args env)

section Forms

variable {call : Calls W} (hcall : call.Keep old) {env : Env} (henv : env.New old)

include hcall henv

theorem keeps_evalAll : ∀ expressions, Effect (KeepsOld old) (evalAll call expressions env) := by
  intro expressions
  induction expressions with
  | pair first second _ ih =>
    unfold evalAll
    apply Effect.bind (hcall.eval first env henv)
    intro val
    exact Effect.ite (Effect.pure val) ih
  | nil => exact Effect.pure _
  | _ => exact Effect.throw _

theorem keeps_mapEval : ∀ operands, Effect (KeepsOld old) (mapEval call operands env) := by
  intro operands
  induction operands with
  | pair first second _ ih =>
    unfold mapEval
    apply Effect.bind (hcall.eval first env henv)
    intro mapped
    split
    · exact Effect.bind ih fun rest => Effect.pure _
    · exact Effect.bind ih fun rest => Effect.pure _
    · exact Effect.throw _
  | nil => exact Effect.pure _
  | _ => exact Effect.throw _

theorem keeps_doDefineForm (expressions : Obj) :
    Effect (KeepsOld old) (doDefineForm call expressions env) := by
  have hnew : ∀ id, env = .frame id → old ≤ id := by
    rintro id rfl
    exact henv
  unfold doDefineForm
  refine Effect.bind (keeps_fromExcept _) fun _ => Effect.bind (keeps_fromExcept _) fun target =>
    Effect.bind (keeps_fromExcept _) fun valueExpr => Effect.ite ?_ ?_
  · refine Effect.bind (keeps_fromExcept _) fun _ => keeps_frameId_bind fun id hid => ?_
    apply Effect.bind (hcall.eval valueExpr env henv)
    intro value
    apply Effect.bind (Effect.modify (keeps_define (hnew id hid) target value))
    intro _
    exact Effect.pure target
  · cases target with
    | pair first formals =>
      refine Effect.ite (Effect.bind (keeps_fromExcept _) fun body => ?_) (Effect.throw _)
      apply keeps_frameId_bind
      intro id hid
      apply Effect.bind (Effect.modify (keeps_define (hnew id hid) first _))
      intro _
      exact Effect.pure first
    | _ => exact Effect.throw _

theorem keeps_doIfForm (expressions : Obj) :
    Effect (KeepsOld old) (doIfForm call expressions env) := by
  unfold doIfForm
  refine Effect.bind (keeps_fromExcept _) fun _ => Effect.bind (keeps_fromExcept _)
    fun predicate => Effect.bind (keeps_fromExcept _) fun branches =>
      Effect.bind (keeps_fromExcept _) fun tbranch =>
        Effect.bind (hcall.eval predicate env henv) fun test => ?_
  apply Effect.ite (hcall.eval tbranch env henv)
  apply Effect.bind (keeps_fromExcept _)
  intro rest
  refine Effect.ite (Effect.pure _) (Effect.bind (keeps_fromExcept _) fun other => ?_)
  exact hcall.eval other env henv

theorem keeps_doAndForm : ∀ expressions, Effect (KeepsOld old) (doAndForm call expressions env) := by
  intro expressions
  induction expressions with
  | pair cur subexpr _ ih =>
    unfold doAndForm
    apply Effect.bind (hcall.eval cur env henv)
    intro evaluation
    exact Effect.ite (Effect.ite (Effect.pure _) ih) (Effect.pure _)
  | nil => exact Effect.pure _
  | _ => exact Effect.throw _

theorem keeps_doOrForm : ∀ expressions, Effect (KeepsOld old) (doOrForm call expressions env) := by
  intro expressions
  induction expressions with
  | pair cur subexpr _ ih =>
    unfold doOrForm
    apply Effect.bind (hcall.eval cur env henv)
    intro evaluation
    exact Effect.ite (Effect.pure _) ih
  | nil => exact Effect.pure _
  | _ => exact Effect.throw _

theorem keeps_condLoop (numClauses : ℕ) : ∀ expressions i,
    Effect (KeepsOld old) (condLoop call numClauses env expressions i) := by
  intro expressions
  induction expressions with
  | pair clause expressions _ ih =>
    intro i
    unfold condLoop
    refine Effect.bind (keeps_fromExcept _) fun _ => Effect.bind (keeps_fromExcept _)
      fun first => Effect.bind ?_ fun test => Effect.ite ?_ (ih (i + 1))
    · unfold clauseTest
      exact Effect.ite (Effect.ite (Effect.throw _) (Effect.pure _)) (hcall.eval first env henv)
    · apply Effect.bind (keeps_fromExcept _)
      intro body
      exact Effect.ite (Effect.pure _) (keeps_evalAll hcall henv body)
  | nil => exact fun _ => Effect.pure _
  | _ => exact fun _ => Effect.throw _

theorem keeps_letLoop : ∀ bindings, Effect (KeepsOld old) (letLoop call env bindings) := by
  intro bindings
  induction bindings with
  | pair clause bindings _ ih =>
    unfold letLoop
    refine Effect.bind (keeps_fromExcept _) fun _ => Effect.bind (keeps_fromExcept _)
      fun first => Effect.ite (Effect.throw _) (Effect.bind (keeps_fromExcept _) fun expr => ?_)
    apply Effect.bind (hcall.eval expr env henv)
    intro value
    exact Effect.bind ih fun rest => Effect.pure _
  | nil => exact Effect.pure _
  | _ => exact Effect.throw _

theorem keeps_makeLetFrame_bind {bindings : Obj} {f : Env → EvalM W β}
    (hf : ∀ env', env'.New old → Effect (KeepsOld old) (f env')) :
    Effect (KeepsOld old) (makeLetFrame call bindings env >>= f) := by
  unfold makeLetFrame
  split
  · exact Effect.throw (PyError.schemeError .badBindingsList)
  · rw [bind_assoc]
    apply Effect.bind (keeps_letLoop hcall henv bindings)
    intro clauses
    exact keeps_makeChildFrame_bind hf

theorem keeps_doLetForm (expressions : Obj) :
    Effect (KeepsOld old) (doLetForm call expressions env) := by
  unfold doLetForm
  refine Effect.bind (keeps_fromExcept _) fun _ => Effect.bind (keeps_fromExcept _)
    fun bindings => keeps_makeLetFrame_bind hcall henv fun letEnv hnew => ?_
  apply Effect.bind (keeps_fromExcept _)
  intro body
  exact keeps_evalAll hcall hnew body

theorem keeps_doForm (form : SpecialForm) (expressions : Obj) :
    Effect (KeepsOld old) (doForm call form expressions env) := by
  cases form with
  | and => exact keeps_doAndForm hcall henv expressions
  | begin => exact Effect.bind (keeps_fromExcept _) fun _ => keeps_evalAll hcall henv expressions
  | cond =>
    exact Effect.bind (keeps_fromExcept _) fun n => keeps_condLoop hcall henv n expressions 0
  | define => exact keeps_doDefineForm hcall henv expressions
  | «if» => exact keeps_doIfForm hcall henv expressions
  | lambda =>
    exact Effect.bind (keeps_fromExcept _) fun _ => Effect.bind (keeps_fromExcept _)
      fun formals => Effect.bind (keeps_fromExcept _) fun _ => Effect.bind (keeps_fromExcept _)
        fun body => Effect.pure _
  | «let» => exact keeps_doLetForm hcall henv expressions
  | or => exact keeps_doOrForm hcall henv expressions
  | quote => exact Effect.bind (keeps_fromExcept _) fun _ => keeps_fromExcept _
  | mu =>
    exact Effect.bind (keeps_fromExcept _) fun _ => Effect.bind (keeps_fromExcept _)
      fun formals => Effect.bind (keeps_fromExcept _) fun body =>
        Effect.bind (keeps_fromExcept _) fun _ => Effect.pure _

theorem keeps_evalLine (out : Outside W) (file : ℕ) :
    ∀ fuel, Effect (KeepsOld old) (evalLine out call file env fuel) := by
  intro fuel
  induction fuel with
  | zero => exact Effect.throw _
  | succ fuel ih =>
    unfold evalLine
    refine Effect.bind Effect.get fun h => Effect.ite ?_ (Effect.pure _)
    apply Effect.bind (keeps_external _)
    intro expression
    exact Effect.bind (hcall.eval expression env henv) fun _ => ih

/-- What was done before an exception stays done, so each turn of the loop keeps the frames. -/
theorem keeps_readEvalPrintLoop (out : Outside W) (file : ℕ) :
    ∀ fuel, Effect (KeepsOld old) (readEvalPrintLoop out call file env fuel) := by
  intro fuel
  induction fuel with
  | zero => exact Effect.throw _
  | succ fuel ih =>
    intro h
    have hline : Effect (KeepsOld old)
        (do external (out.nextLine file); evalLine out call file env fuel) :=
      Effect.bind (keeps_external _) fun _ => keeps_evalLine hcall henv out file fuel
    have hturn := hline h
    unfold readEvalPrintLoop
    split
    · rename_i h' hrun
      rw [hrun] at hturn
      exact trans_of (KeepsOld old) hturn (ih h')
    · rename_i e h' hrun
      rw [hrun] at hturn
      split
      · exact trans_of (KeepsOld old) hturn (ih h')
      · exact hturn
      · exact hturn

theorem keeps_schemeLoad (out : Outside W) (args : List Obj) :
    Effect (KeepsOld old) (schemeLoad out call args env) := by
  unfold schemeLoad
  refine Effect.bind (keeps_fromExcept _) fun (sym, quiet) => Effect.bind (keeps_fromExcept _)
    fun name => Effect.bind (keeps_external _) fun file => Effect.bind (keeps_fromExcept _)
      fun _ => ?_
  exact Effect.bind (keeps_readEvalPrintLoop hcall henv out file _) fun _ => Effect.pure _

theorem keeps_callFn (out : Outside W) (procedure : Primitive) (args : List Obj) :
    Effect (KeepsOld old) (callFn out call procedure args env) := by
  unfold callFn
  split
  · exact hcall.eval _ _ henv
  · exact hcall.eval _ .object trivial
  · exact hcall.apply _ _ _ henv
  · exact keeps_schemeLoad hcall henv out args
  · exact keeps_external _
  · exact Effect.throw _

theorem keeps_applyPrimitive (out : Outside W) (procedure : Primitive) (args : Obj) :
    Effect (KeepsOld old) (applyPrimitive out call procedure args env) := by
  apply Effect.bind (keeps_fromExcept _)
  intro args h
  have hcallFn := keeps_callFn hcall henv out procedure args h
  unfold catchTypeError
  split
  · rename_i h' hrun
    rw [hrun] at hcallFn
    exact hcallFn
  · exact hcallFn

omit henv in
/-- A user-defined procedure may be called in any environment. -/
theorem keeps_applyUserDefined (out : Outside W) {procedure : Obj}
    (hp : userDefinedProcedure procedure = true) (args : Obj) (env : Env) :
    Effect (KeepsOld old) (applyBody out call procedure args env) := by
  cases procedure with
  | lambda formals body closure =>
    refine keeps_makeChildFrame_bind fun newEnv hnew => ?_
    exact keeps_evalAll hcall hnew body
  | mu formals body =>
    refine keeps_makeChildFrame_bind fun newEnv hnew => ?_
    exact keeps_evalAll hcall hnew body
  | _ => cases hp

theorem keeps_applyBody (out : Outside W) (procedure args : Obj) :
    Effect (KeepsOld old) (applyBody out call procedure args env) := by
  by_cases hp : userDefinedProcedure procedure = true
  · exact keeps_applyUserDefined hcall out hp args env
  · cases procedure with
    | primitive p => exact keeps_applyPrimitive hcall henv out p args
    | lambda formals body closure => exact absurd rfl hp
    | mu formals body => exact absurd rfl hp
    | _ => exact Effect.throw _

theorem keeps_evalBody (expr : Obj) : Effect (KeepsOld old) (evalBody call expr env) := by
  unfold evalBody
  refine Effect.ite (Effect.throw _) ?_
  split
  · exact Effect.ite (keeps_lookup _ _ _) (Effect.pure _)
  · refine Effect.ite (Effect.throw _) ?_
    split
    · exact keeps_doForm hcall henv _ _
    · refine Effect.bind (hcall.eval _ env henv) fun procedure => ?_
      apply Effect.bind (keeps_mapEval hcall henv _)
      intro args
      exact hcall.apply procedure args env henv
  · exact Effect.ite (Effect.pure _) (Effect.throw _)

end Forms

theorem keep_calls (out : Outside W) : ∀ fuel, (calls out fuel).Keep old := by
  intro fuel
  induction fuel with
  | zero => exact ⟨fun _ _ _ => Effect.throw _, fun _ _ _ _ => Effect.throw _⟩
  | succ fuel ih =>
    exact ⟨fun expr _ henv => keeps_evalBody ih henv expr,
      fun procedure args _ henv => keeps_applyBody ih henv out procedure args⟩

/-- A call of a user-defined procedure, in whatever environment, keeps the frames there are. -/
theorem schemeApply_keepsFrames (out : Outside W) (fuel : ℕ) {procedure : Obj}
    (hp : userDefinedProcedure procedure = true) (args : Obj) (env : Env) (h : Heap W) :
    KeepsFrames h.frames.length h (finalState (schemeApply out fuel procedure args env h)) := by
  cases fuel with
  | zero => exact Std.Refl.refl (r := KeepsOld h.frames.length) h le_rfl
  | succ fuel => exact keeps_applyUserDefined (keep_calls out fuel) out hp args env h le_rfl

/-- A procedure that defines `y` to be its argument, called where `y` is 1 already. -/
theorem schemeApply_keepsFrames_define :
    let x := Obj.symbol ['x']
    let y := Obj.symbol ['y']
    let define := Obj.symbol ['d', 'e', 'f', 'i', 'n', 'e']
    let out : Outside Unit :=
      ⟨fun _ _ w => (.error .typeError, w), .ok, fun _ w => (.error .valueError, w),
        fun _ w => (.error .eofError, w), fun _ _ => false, fun _ w => (.error .eofError, w)⟩
    let body := Obj.pair (.pair define (.pair y (.pair x .nil))) .nil
    let h : Heap Unit := ⟨[⟨[(y, .atom (.int 1))], none⟩], [], ()⟩
    let h' := finalState (schemeApply out 5 (.lambda (.pair x .nil) body (.frame 0))
      (.pair (.atom (.int 5)) .nil) (.frame 0) h)
    KeepsFrames 1 h h' ∧ h'.defines = [1] := by
  intro x y define out body h h'
  constructor
  · exact schemeApply_keepsFrames out 5 rfl
      (.pair (.atom (.int 5)) .nil) (.frame 0) h
  · decide +kernel

end Courses.Scheme
