import Mathlib.Tactic

/-!
# C computations that allocate

A computation may ask for memory, and may stop without returning. Which of its
requests succeed is decided by an oracle indexed by the number of requests made
before, so every pattern of failing allocations is an oracle. `Returns` is total
correctness when memory never runs out.
-/
namespace Courses.Lib

/-- Why a computation stops without returning. -/
inductive Halt where
  /-- A failed assertion: the program prints it and exits. -/
  | verify
  /-- A dereference of NULL or of freed memory. -/
  | fault
  /-- The bound on a loop or on the recursion depth ran out. -/
  | fuel
  deriving Repr, DecidableEq

/-- The state is the number of allocations requested so far. -/
abbrev AllocM := ReaderT (ℕ → Bool) (StateT ℕ (Except Halt))

namespace AllocM

variable {α β : Type} {Q Q' : α → Prop}

/-- Ask for memory; the answer says whether there was any. -/
def malloc : AllocM Bool := fun ok n => .ok (ok n, n + 1)

def halt (h : Halt) : AllocM α := fun _ _ => .error h

/-- An assertion: go on only if the condition holds. -/
def verify (b : Bool) : AllocM Unit := if b then pure () else halt .verify

/-- An assertion that a pointer is not NULL, giving the pointee. -/
def verifySome : Option α → AllocM α
  | some a => pure a
  | none => halt .verify

/-- Use of a pointer or of an output: NULL, or a value never set, faults. -/
def demand : Option α → AllocM α
  | some a => pure a
  | none => halt .fault

/-- With memory always available, `x` returns and its result meets `Q`. -/
def Returns (x : AllocM α) (Q : α → Prop) : Prop :=
  ∀ n, ∃ a n', x (fun _ => true) n = .ok (a, n') ∧ Q a

theorem bind_ok {x : AllocM α} {a : α} {ok : ℕ → Bool} {n n' : ℕ} (h : x ok n = .ok (a, n'))
    (f : α → AllocM β) : (x >>= f) ok n = f a ok n' := by
  change (x ok n).bind (fun r => f r.1 ok r.2) = _
  rw [h]
  rfl

theorem Returns.mono {x : AllocM α} (h : Returns x Q) (hQ : ∀ a, Q a → Q' a) :
    Returns x Q' := by
  intro n
  obtain ⟨a, n', hx, ha⟩ := h n
  exact ⟨a, n', hx, hQ a ha⟩

theorem returns_pure {a : α} (h : Q a) : Returns (pure a) Q :=
  fun n => ⟨a, n, rfl, h⟩

theorem Returns.bind {x : AllocM α} {f : α → AllocM β} {P : β → Prop}
    (hx : Returns x Q) (hf : ∀ a, Q a → Returns (f a) P) : Returns (x >>= f) P := by
  intro n
  obtain ⟨a, n', hxa, ha⟩ := hx n
  obtain ⟨b, n'', hfb, hb⟩ := hf a ha n'
  exact ⟨b, n'', (bind_ok hxa f).trans hfb, hb⟩

theorem returns_malloc : Returns malloc (fun b => b = true) :=
  fun n => ⟨true, n + 1, rfl, rfl⟩

theorem returns_verify {b : Bool} (h : b = true) : Returns (verify b) (fun _ => True) := by
  rw [verify, if_pos h]
  exact returns_pure trivial

theorem returns_verifySome {o : Option α} {a : α} (h : o = some a) :
    Returns (verifySome o) (fun b => b = a) := by
  rw [h]
  exact returns_pure rfl

theorem returns_demand {o : Option α} {a : α} (h : o = some a) :
    Returns (demand o) (fun b => b = a) := by
  rw [h]
  exact returns_pure rfl

/-- The rule for a computation whose result is known exactly. -/
theorem Returns.bind_eq {x : AllocM α} {a : α} {f : α → AllocM β} {P : β → Prop}
    (hx : Returns x (fun b => b = a)) (hf : Returns (f a) P) : Returns (x >>= f) P :=
  hx.bind fun _ hb => hb ▸ hf

theorem returns_malloc_bind {f : Bool → AllocM β} {P : β → Prop} (h : Returns (f true) P) :
    Returns (malloc >>= f) P :=
  returns_malloc.bind_eq h

/-- The two answers of a computation are one. -/
theorem Returns.and {x : AllocM α} (h : Returns x Q) (h' : Returns x Q') :
    Returns x fun a => Q a ∧ Q' a := by
  intro n
  obtain ⟨a, n', hx, ha⟩ := h n
  obtain ⟨a', n'', hx', ha'⟩ := h' n
  rw [hx] at hx'
  cases hx'
  exact ⟨a, n', hx, ha, ha'⟩

theorem Returns.exists {x : AllocM α} (h : Returns x Q) : ∃ a, Q a := by
  obtain ⟨a, -, -, ha⟩ := h 0
  exact ⟨a, ha⟩

/-- With memory always available, `x` stops at an assertion. -/
def Aborts (x : AllocM α) : Prop := ∀ n, x (fun _ => true) n = .error .verify

theorem aborts_verifySome {f : α → AllocM β} : Aborts (verifySome none >>= f) := fun _ => rfl

theorem Returns.aborts_bind {x : AllocM α} {f : α → AllocM β} (hx : Returns x Q)
    (hf : ∀ a, Q a → Aborts (f a)) : Aborts (x >>= f) := by
  intro n
  obtain ⟨a, n', hxa, ha⟩ := hx n
  rw [bind_ok hxa]
  exact hf a ha n'

theorem Returns.aborts_bind_eq {x : AllocM α} {a : α} {f : α → AllocM β}
    (hx : Returns x fun b => b = a) (hf : Aborts (f a)) : Aborts (x >>= f) :=
  hx.aborts_bind fun _ hb => hb ▸ hf

theorem Aborts.bind {x : AllocM α} (hx : Aborts x) (f : α → AllocM β) : Aborts (x >>= f) := by
  intro n
  change (x (fun _ => true) n).bind (fun r => f r.1 (fun _ => true) r.2) = _
  rw [hx n]
  rfl

/-- With memory always available, `x` returns nothing that meets `Q`. -/
def Never (x : AllocM α) (Q : α → Prop) : Prop :=
  ∀ n a n', x (fun _ => true) n = .ok (a, n') → ¬ Q a

theorem never_of_forall {x : AllocM α} (h : ∀ a, ¬ Q a) : Never x Q := fun _ a _ _ => h a

theorem Aborts.never {x : AllocM α} (h : Aborts x) : Never x Q := by
  intro n a n' hxa
  rw [h n] at hxa
  cases hxa

theorem Returns.never {x : AllocM α} (h : Returns x fun a => ¬ Q a) : Never x Q := by
  intro n a n' hxa
  obtain ⟨b, n'', hxb, hb⟩ := h n
  rw [hxa] at hxb
  cases hxb
  exact hb

theorem Never.not_returns {x : AllocM α} (h : Never x Q) : ¬ Returns x Q := by
  intro hx
  obtain ⟨a, n', hxa, ha⟩ := hx 0
  exact h 0 a n' hxa ha

theorem Returns.never_bind {x : AllocM α} {f : α → AllocM β} {P : β → Prop} (hx : Returns x Q)
    (hf : ∀ a, Q a → Never (f a) P) : Never (x >>= f) P := by
  intro n b n' hb
  obtain ⟨a, n'', hxa, ha⟩ := hx n
  rw [bind_ok hxa] at hb
  exact hf a ha n'' b n' hb

end AllocM
end Courses.Lib
