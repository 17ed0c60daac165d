import Mathlib.Tactic

/-!
# Parsers over a list with a bound

A parser takes elements off a list and may fail. One whose loops and calls are bounded by a
count does not reach the bound if each round takes an element and the count exceeds the
length of the list. `stop` is the failure that says the bound was reached.
-/
namespace Courses.Lib

/-- A parser over elements of `τ` that fails with `ε`. -/
abbrev ListParser (τ ε : Type) := StateT (List τ) (Except ε)

namespace ListParser

variable {τ ε α β : Type} {stop : ε} {I : τ → Prop} {k n : ℕ} {Q : α → Prop} {R : β → Prop}
  {ts ts' : List τ} {a : α}

theorem run_bind {x : ListParser τ ε α} {f : α → ListParser τ ε β} (h : x ts = .ok (a, ts')) :
    (x >>= f) ts = f a ts' := by
  change (x ts >>= fun r => f r.1 r.2) = f a ts'
  rw [h]
  rfl

theorem run_bind_error {x : ListParser τ ε α} {f : α → ListParser τ ε β} {e : ε}
    (h : x ts = .error e) : (x >>= f) ts = .error e := by
  change (x ts >>= fun r => f r.1 r.2) = .error e
  rw [h]
  rfl

theorem run_bind_eq_ok {x : ListParser τ ε α} {f : α → ListParser τ ε β} {b : β}
    {rest : List τ} (h : (x >>= f) ts = .ok (b, rest)) :
    ∃ a ts', x ts = .ok (a, ts') ∧ f a ts' = .ok (b, rest) := by
  cases hresult : x ts with
  | error e =>
    rw [run_bind_error hresult] at h
    cases h
  | ok r =>
    obtain ⟨a, ts'⟩ := r
    rw [run_bind hresult] at h
    exact ⟨a, ts', rfl, h⟩

/-- What a parser may do on a list that has `n` elements: it returns a value with `Q` and
leaves no more elements, all of them with `I`, or it fails, but not by reaching the bound. -/
def Outcome (stop : ε) (I : τ → Prop) (Q : α → Prop) (n : ℕ) : Except ε (α × List τ) → Prop
  | .ok (a, rest) => Q a ∧ (∀ t ∈ rest, I t) ∧ rest.length ≤ n
  | .error e => e ≠ stop

theorem Outcome.mono {r : Except ε (α × List τ)} (h : Outcome stop I Q k r) (hk : k ≤ n) :
    Outcome stop I Q n r := by
  cases r with
  | error e => exact h
  | ok r => exact ⟨h.1, h.2.1, h.2.2.trans hk⟩

/-- On fewer than `k` elements, all of them with `I`. -/
def Returns (stop : ε) (I : τ → Prop) (k : ℕ) (x : ListParser τ ε α) (Q : α → Prop) : Prop :=
  ∀ ts : List τ, ts.length < k → (∀ t ∈ ts, I t) → Outcome stop I Q ts.length (x ts)

namespace Returns

theorem pure {a : α} (h : Q a) : Returns stop I k (pure a : ListParser τ ε α) Q :=
  fun _ _ hts => ⟨h, hts, le_rfl⟩

theorem throw {e : ε} (h : e ≠ stop) : Returns stop I k (throw e : ListParser τ ε α) Q :=
  fun _ _ _ => h

theorem zero (x : ListParser τ ε α) : Returns stop I 0 x Q :=
  fun _ hlt => absurd hlt (Nat.not_lt_zero _)

theorem mono {x : ListParser τ ε α} (h : Returns stop I n x Q) (hk : k ≤ n) :
    Returns stop I k x Q :=
  fun ts hlt hts => h ts (hlt.trans_le hk) hts

theorem bind {x : ListParser τ ε α} {f : α → ListParser τ ε β} (hx : Returns stop I k x Q)
    (hf : ∀ a, Q a → Returns stop I k (f a) R) : Returns stop I k (x >>= f) R := by
  intro ts hlt hts
  have hrun := hx ts hlt hts
  cases hresult : x ts with
  | error e =>
    rw [hresult] at hrun
    rw [run_bind_error hresult]
    exact hrun
  | ok r =>
    obtain ⟨a, rest⟩ := r
    rw [hresult] at hrun
    obtain ⟨ha, hrest, hle⟩ := hrun
    rw [run_bind hresult]
    exact (hf a ha rest (hle.trans_lt hlt) hrest).mono hle

/-- After a parser that takes an element where its value has `Q`, fewer are left. -/
theorem bind_takes {x : ListParser τ ε α} {f : α → ListParser τ ε β} {P : α → Prop}
    (hx : ∀ ts, (∀ t ∈ ts, I t) → Outcome stop I (fun a => Q a ∨ P a) ts.length (x ts) ∧
      ∀ a rest, x ts = .ok (a, rest) → Q a → rest.length < ts.length)
    (hf : ∀ a, Q a → Returns stop I k (f a) R) (hf' : ∀ a, P a → Returns stop I (k + 1) (f a) R) :
    Returns stop I (k + 1) (x >>= f) R := by
  intro ts hlt hts
  obtain ⟨hrun, htakes⟩ := hx ts hts
  cases hresult : x ts with
  | error e =>
    rw [hresult] at hrun
    rw [run_bind_error hresult]
    exact hrun
  | ok r =>
    obtain ⟨a, rest⟩ := r
    rw [hresult] at hrun
    obtain ⟨ha, hrest, hle⟩ := hrun
    rw [run_bind hresult]
    rcases ha with ha | ha
    · have hless := htakes a rest hresult ha
      exact (hf a ha rest (by omega) hrest).mono hle
    · exact (hf' a ha rest (hle.trans_lt hlt) hrest).mono hle

end Returns
end ListParser
end Courses.Lib
