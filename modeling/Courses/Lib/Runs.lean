import Mathlib.Tactic

/-!
# Runs of a labelled step function

A system is a partial step function `step : σ → ε → Option σ`; a run takes any
sequence of enabled labels. `Reaches` collects the states of the runs whose
steps all meet a condition on the label and the state before it, so a claim
about every run is the case of the condition that is always true.
-/
namespace Courses.Lib

variable {σ ε : Type*} {step : σ → ε → Option σ} {ok : σ → ε → Prop} {s₀ : σ}

/-- States reached from `s₀` by steps that all meet `ok`. -/
inductive Reaches (step : σ → ε → Option σ) (ok : σ → ε → Prop) (s₀ : σ) : σ → Prop
  | refl : Reaches step ok s₀ s₀
  | tail {s : σ} {e : ε} {s' : σ} :
      Reaches step ok s₀ s → ok s e → step s e = some s' → Reaches step ok s₀ s'

/-- States reached by any run at all. -/
abbrev Reachable (step : σ → ε → Option σ) (s₀ : σ) : σ → Prop :=
  Reaches step (fun _ _ => True) s₀

/-- The induction behind every statement about all runs: what holds at the start
and is kept by each admissible step holds in every state reached. -/
theorem Reaches.invariant {I : σ → Prop} {s : σ} (h : Reaches step ok s₀ s) (h₀ : I s₀)
    (hstep : ∀ s e s', I s → ok s e → step s e = some s' → I s') : I s := by
  induction h with
  | refl => exact h₀
  | tail _ hok hs ih => exact hstep _ _ _ ih hok hs

theorem Reaches.mono {ok' : σ → ε → Prop} {s : σ} (h : Reaches step ok s₀ s)
    (hok : ∀ s e, ok s e → ok' s e) : Reaches step ok' s₀ s := by
  induction h with
  | refl => exact .refl
  | tail _ ho hs ih => exact ih.tail (hok _ _ ho) hs

theorem Reaches.trans {s t : σ} (h : Reaches step ok s₀ s) (h' : Reaches step ok s t) :
    Reaches step ok s₀ t := by
  induction h' with
  | refl => exact h
  | tail _ ho hs ih => exact ih.tail ho hs

/-- A run that begins with a given step. -/
theorem Reaches.head {e : ε} {s t : σ} (hok : ok s₀ e) (hs : step s₀ e = some s)
    (h : Reaches step ok s t) : Reaches step ok s₀ t :=
  (Reaches.refl.tail hok hs).trans h

theorem Reaches.reachable {s : σ} (h : Reaches step ok s₀ s) : Reachable step s₀ s :=
  h.mono fun _ _ _ => trivial

/-- Execute a list of labels, stopping at the first that is not enabled or that
fails the condition. -/
def runWhile (step : σ → ε → Option σ) (ok : σ → ε → Bool) : σ → List ε → Option σ
  | s, [] => some s
  | s, e :: es => if ok s e then (step s e).bind (runWhile step ok · es) else none

theorem reaches_runWhile {ok : σ → ε → Bool} (es : List ε) {s s' : σ}
    (h₀ : Reaches step (fun s e => ok s e = true) s₀ s)
    (h : runWhile step ok s es = some s') :
    Reaches step (fun s e => ok s e = true) s₀ s' := by
  induction es generalizing s with
  | nil =>
    cases h
    exact h₀
  | cons e es ih =>
    simp only [runWhile] at h
    split_ifs at h with hok
    cases hs : step s e with
    | none => simp [hs] at h
    | some t =>
      rw [hs, Option.bind_some] at h
      exact ih (h₀.tail hok hs) h

/-- A concrete trace shows its last state reachable. -/
theorem reachable_runWhile (es : List ε) {s : σ}
    (h : runWhile step (fun _ _ => true) s₀ es = some s) : Reachable step s₀ s :=
  (reaches_runWhile es .refl h).reachable

end Courses.Lib
