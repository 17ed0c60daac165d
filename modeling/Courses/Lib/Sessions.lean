/-!
# Sessions with an object

An object takes calls one after the other, each answered with a reply and a new state. One
object refines another if related states answer every call alike and stay related; it is
enough to look at one call, under whatever condition all the calls meet.
-/
namespace Courses.Lib

variable {σ τ ι ρ : Type}

/-- The replies to a list of calls, and the state after them. -/
@[grind]
def session (step : σ → ι → ρ × σ) (s : σ) : List ι → List ρ × σ
  | [] => ([], s)
  | c :: cs =>
    let rest := session step (step s c).2 cs
    ((step s c).1 :: rest.1, rest.2)

/-- Every call meets the condition in the state in which it is made. -/
@[grind]
def Meets (step : σ → ι → ρ × σ) (ok : σ → ι → Prop) (s : σ) : List ι → Prop
  | [] => True
  | c :: cs => ok s c ∧ Meets step ok (step s c).2 cs

variable {step : σ → ι → ρ × σ} {spec : τ → ι → ρ × τ} {ok : τ → ι → Prop} {R : σ → τ → Prop}

theorem session_append (s : σ) (cs ds : List ι) :
    session step s (cs ++ ds) =
      ((session step s cs).1 ++ (session step (session step s cs).2 ds).1,
        (session step (session step s cs).2 ds).2) := by
  induction cs generalizing s with
  | nil => rfl
  | cons c cs ih => simp only [List.cons_append, session, ih]

theorem session_concat (s : σ) (cs : List ι) (c : ι) :
    (session step s (cs ++ [c])).2 = (step (session step s cs).2 c).2 := by
  induction cs generalizing s with
  | nil => rfl
  | cons d cs ih => exact ih (step s d).2

theorem session_concat_replies (s : σ) (cs : List ι) (c : ι) :
    (session step s (cs ++ [c])).1 =
      (session step s cs).1 ++ [(step (session step s cs).2 c).1] := by
  induction cs generalizing s with
  | nil => rfl
  | cons d cs ih => exact congrArg _ (ih (step s d).2)

theorem meets_concat {legal : σ → ι → Prop} (s : σ) (cs : List ι) (c : ι) :
    Meets step legal s (cs ++ [c]) ↔
      Meets step legal s cs ∧ legal (session step s cs).2 c := by
  induction cs generalizing s with
  | nil => simp [Meets, session]
  | cons d cs ih =>
    have hrest := ih (step s d).2
    simp only [List.cons_append, Meets, hrest, session, and_assoc]

/-- The rule of refinement. -/
theorem session_refines
    (hstep : ∀ s t c, R s t → ok t c →
      (step s c).1 = (spec t c).1 ∧ R (step s c).2 (spec t c).2)
    {s : σ} {t : τ} {cs : List ι} (h : R s t) (hmeets : Meets spec ok t cs) :
    (session step s cs).1 = (session spec t cs).1 ∧
      R (session step s cs).2 (session spec t cs).2 := by
  induction cs generalizing s t with
  | nil => exact ⟨rfl, h⟩
  | cons c cs ih =>
    obtain ⟨hok, hmeets⟩ := hmeets
    obtain ⟨hreply, hrel⟩ := hstep s t c h hok
    obtain ⟨hreplies, hend⟩ := ih hrel hmeets
    exact ⟨by simp [session, hreply, hreplies], hend⟩

/-! ## Methods that throw -/

section Methods

variable {ε α β : Type} {m : EStateM ε σ α} {f : α → EStateM ε σ β} {s s' : σ}

/-- The answer of a method, and the state it leaves whether it returns or throws. -/
def answer (m : EStateM ε σ α) (s : σ) : Except ε α × σ :=
  match m s with
  | .ok a s => (.ok a, s)
  | .error e s => (.error e, s)

theorem answer_of_ok {a : α} (h : m s = .ok a s') : answer m s = (.ok a, s') := by
  simp [answer, h]

theorem answer_of_error {e : ε} (h : m s = .error e s') : answer m s = (.error e, s') := by
  simp [answer, h]

theorem bind_of_ok {a : α} (h : m s = .ok a s') : (m >>= f) s = f a s' := by
  simp only [bind, EStateM.bind, h]

theorem bind_of_error {e : ε} (h : m s = .error e s') : (m >>= f) s = .error e s' := by
  simp only [bind, EStateM.bind, h]

theorem get_bind (f : σ → EStateM ε σ β) (s : σ) : (get >>= f) s = f s s := rfl

theorem modify_bind (g : σ → σ) (f : Unit → EStateM ε σ β) (s : σ) :
    (modify g >>= f) s = f () (g s) := rfl

end Methods

end Courses.Lib
