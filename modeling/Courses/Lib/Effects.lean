import Mathlib.Order.Defs.Unbundled
import Mathlib.Tactic

/-!
# Effects of computations with exceptions

A computation over a state that may throw, where what was done before an
exception stays done. A relation between states that is a preorder holds
between the state before a computation and the state after it, whatever the
outcome, as soon as it holds for the steps the computation is made of.
-/

namespace Courses.Lib

variable {σ ε α β : Type} {R : σ → σ → Prop}

/-- The state that a run ends in. -/
def finalState : EStateM.Result ε σ α → σ
  | .ok _ s => s
  | .error _ s => s

theorem eval_bind_ok {m : EStateM ε σ α} {s s' : σ} {a : α} (h : m s = .ok a s')
    (f : α → EStateM ε σ β) : (m >>= f) s = f a s' := by
  change EStateM.bind m f s = f a s'
  simp only [EStateM.bind, h]

theorem eval_bind_error {m : EStateM ε σ α} {s s' : σ} {e : ε} (h : m s = .error e s')
    (f : α → EStateM ε σ β) : (m >>= f) s = .error e s' := by
  change EStateM.bind m f s = .error e s'
  simp only [EStateM.bind, h]

/-- `R` relates the states before and after the computation. -/
def Effect (R : σ → σ → Prop) (m : EStateM ε σ α) : Prop := ∀ s, R s (finalState (m s))

namespace Effect

theorem pure [Std.Refl R] (a : α) : Effect R (pure a : EStateM ε σ α) :=
  fun s => Std.Refl.refl s

theorem throw [Std.Refl R] (e : ε) : Effect R (throw e : EStateM ε σ α) :=
  fun s => Std.Refl.refl s

theorem get [Std.Refl R] : Effect R (get : EStateM ε σ σ) :=
  fun s => Std.Refl.refl s

theorem modify {f : σ → σ} (h : ∀ s, R s (f s)) : Effect R (modify f : EStateM ε σ Unit) :=
  h

/-- The first part of a computation is known from the state where it starts only. -/
theorem bind_from [IsTrans σ R] {m : EStateM ε σ α} {f : α → EStateM ε σ β} {s₀ s : σ}
    (hm : R s₀ (finalState (m s))) (hf : ∀ a, Effect R (f a)) :
    R s₀ (finalState ((m >>= f) s)) := by
  cases hrun : m s with
  | error e s' =>
    rw [hrun] at hm
    rw [eval_bind_error hrun]
    exact hm
  | ok a s' =>
    rw [hrun] at hm
    rw [eval_bind_ok hrun]
    exact trans_of R hm (hf a s')

theorem bind [IsTrans σ R] {m : EStateM ε σ α} {f : α → EStateM ε σ β} (hm : Effect R m)
    (hf : ∀ a, Effect R (f a)) : Effect R (m >>= f) :=
  fun s => bind_from (hm s) hf

theorem ite {c : Prop} [Decidable c] {m m' : EStateM ε σ α} (hm : Effect R m)
    (hm' : Effect R m') : Effect R (if c then m else m') := by
  split
  · exact hm
  · exact hm'

end Effect

end Courses.Lib

/-!
# Computations with less fuel

A computation that may give up with the exception `bottom` approximates another one if it gives
up or does the same. Approximation goes through the steps that computations are made of, so the
runs of an interpreter approximate those with more fuel.
-/
namespace Courses.Lib

variable {σ ε α β : Type} {bottom : ε}

/-- `m` throws `bottom`, or does what `m'` does. -/
def Approx (bottom : ε) (m m' : EStateM ε σ α) : Prop :=
  ∀ s, (∃ s', m s = .error bottom s') ∨ m s = m' s

namespace Approx

theorem refl (m : EStateM ε σ α) : Approx bottom m m := fun _ => .inr rfl

theorem throw (m' : EStateM ε σ α) : Approx bottom (throw bottom) m' := fun s => .inl ⟨s, rfl⟩

theorem bind {m m' : EStateM ε σ α} {f f' : α → EStateM ε σ β} (hm : Approx bottom m m')
    (hf : ∀ a, Approx bottom (f a) (f' a)) : Approx bottom (m >>= f) (m' >>= f') := by
  intro s
  change (∃ s', EStateM.bind m f s = .error bottom s') ∨ EStateM.bind m f s = EStateM.bind m' f' s
  unfold EStateM.bind
  obtain ⟨s', hm⟩ | hm := hm s
  · rw [hm]
    exact .inl ⟨s', rfl⟩
  · rw [← hm]
    cases m s with
    | error e s' => exact .inr rfl
    | ok a s' => exact hf a s'

theorem ite {c : Prop} [Decidable c] {m n m' n' : EStateM ε σ α} (hm : Approx bottom m m')
    (hn : Approx bottom n n') : Approx bottom (if c then m else n) (if c then m' else n') := by
  split
  · exact hm
  · exact hn

theorem trans {m m' m'' : EStateM ε σ α} (h : Approx bottom m m') (h' : Approx bottom m' m'') :
    Approx bottom m m'' := by
  intro s
  obtain hm | hm := h s
  · exact .inl hm
  · rw [hm]
    exact h' s

/-- What is not given up is the result with more fuel as well. -/
theorem eq_of {m m' : EStateM ε σ α} (h : Approx bottom m m') {s : σ}
    {r : EStateM.Result ε σ α} (hm : m s = r) (hr : ∀ s', r ≠ .error bottom s') : m' s = r := by
  obtain ⟨s', hs'⟩ | heq := h s
  · exact absurd (hm.symm.trans hs') (hr s')
  · rw [← heq, hm]

end Approx

end Courses.Lib
