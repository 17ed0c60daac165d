import Courses.Lib.Alloc

/-!
# Requests for memory that are refused

Two ways to reason about a computation under an arbitrary oracle. `Leaves` says what holds
of a result, if there is one. A plan lists the requests a computation makes when all goes
well, with those marked that must be granted; `Follows` says that the computation is on its
plan as long as these are granted, and what is left of it once one was refused.
-/
namespace Courses.Lib

/-- A plan of requests; it comes to nothing when a request it needs is refused. -/
abbrev Plan := ReaderT (ℕ → Bool) (StateT ℕ Option)

namespace Plan

variable {α : Type}

/-- A request that may be refused. -/
def ask : Plan Bool := fun ok n => some (ok n, n + 1)

/-- A request that must be granted. -/
def need : Plan Unit := fun ok n => if ok n then some ((), n + 1) else none

/-- Requests made one after the other, up to the first that is refused. -/
def askAll : ℕ → Plan Bool
  | 0 => pure true
  | k + 1 => do if ← ask then askAll k else return false

/-- Every request the plan needs is granted. -/
def Granted (p : Plan α) (ok : ℕ → Bool) (n : ℕ) : Prop := (p ok n).isSome

instance (p : Plan α) (ok : ℕ → Bool) (n : ℕ) : Decidable (p.Granted ok n) :=
  inferInstanceAs (Decidable ((p ok n).isSome = true))

end Plan

namespace AllocM

variable {α β γ δ : Type}

/-! ## Computations that make no request -/

/-- `x` makes no request, so the oracle has no part in what it does. -/
def Silent (x : AllocM α) : Prop :=
  ∀ ok n, x ok n = (x (fun _ => true) 0).map fun r => (r.1, n)

theorem silent_pure (a : α) : Silent (pure a) := fun _ _ => rfl

theorem silent_halt (h : Halt) : Silent (halt h : AllocM α) := fun _ _ => rfl

theorem Silent.bind {x : AllocM α} {f : α → AllocM β} (hx : Silent x) (hf : ∀ a, Silent (f a)) :
    Silent (x >>= f) := by
  intro ok n
  change (x ok n).bind (fun r => f r.1 ok r.2) =
    ((x (fun _ => true) 0).bind fun r => f r.1 (fun _ => true) r.2).map fun r => (r.1, n)
  rw [hx ok n]
  cases h : x (fun _ => true) 0 with
  | error e => rfl
  | ok r =>
    have hzero : r.2 = 0 := by
      have := hx (fun _ => true) 0
      rw [h] at this
      exact congrArg Prod.snd (Except.ok.inj this)
    change f r.1 ok n = (f r.1 (fun _ => true) r.2).map _
    rw [hzero, hf r.1 ok n]

theorem silent_ite {c : Prop} [Decidable c] {x y : AllocM α} (hx : Silent x) (hy : Silent y) :
    Silent (if c then x else y) := by
  split_ifs
  · exact hx
  · exact hy

theorem silent_verify (b : Bool) : Silent (verify b) := silent_ite (silent_pure _) (silent_halt _)

theorem silent_verifySome (o : Option α) : Silent (verifySome o) := by
  cases o with
  | none => exact silent_halt _
  | some a => exact silent_pure a

theorem silent_demand (o : Option α) : Silent (demand o) := by
  cases o with
  | none => exact silent_halt _
  | some a => exact silent_pure a

/-- What a silent computation returns with memory, it returns without. -/
theorem Returns.run {x : AllocM α} {Q : α → Prop} (h : Returns x Q) (hs : Silent x)
    (ok : ℕ → Bool) (n : ℕ) : ∃ a, x ok n = .ok (a, n) ∧ Q a := by
  obtain ⟨a, n', hx, ha⟩ := h 0
  refine ⟨a, ?_, ha⟩
  rw [hs ok n, hx]
  rfl

/-! ## What holds of a result -/

/-- Whatever is refused, a result of `x` meets `Q`. -/
def Leaves (x : AllocM α) (Q : α → Prop) : Prop :=
  ∀ ok n a n', x ok n = .ok (a, n') → Q a

theorem leaves_true (x : AllocM α) : Leaves x fun _ => True := fun _ _ _ _ _ => trivial

theorem leaves_pure {a : α} {Q : α → Prop} (h : Q a) : Leaves (pure a) Q := by
  intro ok n b n' hb
  cases hb
  exact h

theorem leaves_halt {h : Halt} {Q : α → Prop} : Leaves (halt h) Q := by
  intro ok n a n' ha
  cases ha

theorem Leaves.mono {x : AllocM α} {Q Q' : α → Prop} (h : Leaves x Q) (hQ : ∀ a, Q a → Q' a) :
    Leaves x Q' :=
  fun ok n a n' ha => hQ a (h ok n a n' ha)

theorem Leaves.bind {x : AllocM α} {f : α → AllocM β} {Q : α → Prop} {P : β → Prop}
    (hx : Leaves x Q) (hf : ∀ a, Q a → Leaves (f a) P) : Leaves (x >>= f) P := by
  intro ok n b n' hb
  change (x ok n).bind (fun r => f r.1 ok r.2) = _ at hb
  cases ha : x ok n with
  | error e =>
    rw [ha] at hb
    cases hb
  | ok r =>
    rw [ha] at hb
    exact hf r.1 (hx ok n r.1 r.2 ha) ok r.2 b n' hb

theorem leaves_bind {x : AllocM α} {f : α → AllocM β} {P : β → Prop}
    (hf : ∀ a, Leaves (f a) P) : Leaves (x >>= f) P :=
  (leaves_true x).bind fun a _ => hf a

theorem leaves_verify (b : Bool) : Leaves (verify b) fun _ => b = true := by
  cases b with
  | false => exact leaves_halt
  | true => exact leaves_pure rfl

theorem leaves_verifySome (o : Option α) : Leaves (verifySome o) fun a => o = some a := by
  cases o with
  | none => exact leaves_halt
  | some a => exact leaves_pure rfl

theorem Returns.leaves {x : AllocM α} {Q : α → Prop} (h : Returns x Q) (hs : Silent x) :
    Leaves x Q := by
  intro ok n a n' hx
  obtain ⟨b, hb, hQ⟩ := h.run hs ok n
  rw [hx] at hb
  cases hb
  exact hQ

/-! ## Computations on a plan -/

/-- With every request of the plan granted that it needs, `x` makes just the requests planned
and its result meets `Q`, unless it stops at an assertion. With one refused, a result of `x`
meets `L`. -/
def Follows (x : AllocM α) (p : Plan β) (Q : α → β → Prop) (L : α → Prop) : Prop :=
  ∀ ok n,
    (∀ b m, p ok n = some (b, m) → x ok n = .error .verify ∨ ∃ a, x ok n = .ok (a, m) ∧ Q a b) ∧
      (p ok n = none → ∀ a m, x ok n = .ok (a, m) → L a)

variable {x : AllocM α} {f : α → AllocM γ} {p : Plan β} {g : β → Plan δ}
  {Q : α → β → Prop} {L : α → Prop} {Q' : γ → δ → Prop} {L' : γ → Prop} {q : Plan δ}

theorem Follows.mono {P : α → β → Prop} {M : α → Prop} (h : Follows x p Q L)
    (hQ : ∀ a b, Q a b → P a b) (hL : ∀ a, L a → M a) : Follows x p P M := by
  intro ok n
  obtain ⟨hsome, hnone⟩ := h ok n
  refine ⟨fun b m hb => ?_, fun hp a m ha => hL a (hnone hp a m ha)⟩
  rcases hsome b m hb with hstop | ⟨a, ha, hab⟩
  · exact Or.inl hstop
  · exact Or.inr ⟨a, ha, hQ a b hab⟩

theorem follows_pure {a : α} {b : β} (h : Q a b) : Follows (pure a) (pure b) Q L := by
  intro ok n
  refine ⟨fun b' m hb => ?_, fun hp => nomatch hp⟩
  cases hb
  exact Or.inr ⟨a, rfl, h⟩

/-- One after the other; once off the plan, the second must keep `L'`. -/
theorem Follows.bind (hx : Follows x p Q L) (hf : ∀ a b, Q a b → Follows (f a) (g b) Q' L')
    (hL : ∀ a, L a → Leaves (f a) L') : Follows (x >>= f) (p >>= g) Q' L' := by
  intro ok n
  obtain ⟨hsome, hnone⟩ := hx ok n
  have hplan : (p >>= g) ok n = (p ok n).bind fun r => g r.1 ok r.2 := rfl
  have hrun : (x >>= f) ok n = (x ok n).bind fun r => f r.1 ok r.2 := rfl
  rw [hplan, hrun]
  cases hp : p ok n with
  | none =>
    refine ⟨fun b m hb => (nomatch hb), fun _ c m hc => ?_⟩
    cases ha : x ok n with
    | error e =>
      rw [ha] at hc
      cases hc
    | ok r =>
      rw [ha] at hc
      exact hL r.1 (hnone hp r.1 r.2 ha) ok r.2 c m hc
  | some r =>
    rcases hsome r.1 r.2 hp with hstop | ⟨a, ha, hab⟩
    · rw [hstop]
      exact ⟨fun _ _ _ => Or.inl rfl, fun _ c m hc => nomatch hc⟩
    · rw [ha]
      exact hf a r.1 hab ok r.2

theorem Follows.leaves (h : Follows x p Q L) : Leaves x fun a => (∃ b, Q a b) ∨ L a := by
  intro ok n a m ha
  obtain ⟨hsome, hnone⟩ := h ok n
  cases hp : p ok n with
  | none => exact Or.inr (hnone hp a m ha)
  | some r =>
    rcases hsome r.1 r.2 hp with hstop | ⟨a', ha', hab⟩
    · rw [hstop] at ha
      cases ha
    · rw [ha'] at ha
      cases ha
      exact Or.inl ⟨r.1, hab⟩

/-- A computation that makes no request has no part in the plan. -/
theorem Returns.follows_bind {P : α → Prop} (hx : Returns x P) (hs : Silent x)
    (hf : ∀ a, P a → Follows (f a) q Q' L') : Follows (x >>= f) q Q' L' := by
  intro ok n
  obtain ⟨a, ha, hP⟩ := hx.run hs ok n
  rw [bind_ok ha]
  exact hf a hP ok n

theorem Returns.follows_bind_eq {a : α} (hx : Returns x fun b => b = a) (hs : Silent x)
    (hf : Follows (f a) q Q' L') : Follows (x >>= f) q Q' L' :=
  hx.follows_bind hs fun _ hb => hb ▸ hf

theorem follows_verify_bind {b : Bool} {f : Unit → AllocM γ}
    (hf : b = true → Follows (f ()) q Q' L') : Follows (verify b >>= f) q Q' L' := by
  cases b with
  | true => exact hf rfl
  | false => exact fun _ _ => ⟨fun _ _ _ => Or.inl rfl, fun _ _ _ hc => nomatch hc⟩

theorem follows_verifySome_bind {o : Option α} (hf : ∀ a, o = some a → Follows (f a) q Q' L') :
    Follows (verifySome o >>= f) q Q' L' := by
  cases o with
  | some a => exact hf a rfl
  | none => exact fun _ _ => ⟨fun _ _ _ => Or.inl rfl, fun _ _ _ hc => nomatch hc⟩

theorem follows_ask : Follows malloc Plan.ask (fun a b => a = b) fun _ => False := by
  intro ok n
  refine ⟨fun b m hb => ?_, fun hp => nomatch hp⟩
  cases hb
  exact Or.inr ⟨_, rfl, rfl⟩

theorem follows_need : Follows malloc Plan.need (fun a _ => a = true) fun a => a = false := by
  intro ok n
  rw [Plan.need]
  split_ifs with h
  · refine ⟨fun b m hb => ?_, fun hp => nomatch hp⟩
    cases hb
    exact Or.inr ⟨_, rfl, h⟩
  · refine ⟨fun b m hb => (nomatch hb), fun _ a m ha => ?_⟩
    cases ha
    exact Bool.eq_false_of_not_eq_true h

/-- A silent computation makes none of the requests of a plan. -/
theorem Returns.follows {b : β} {P : α → Prop} (hx : Returns x P) (hs : Silent x)
    (hP : ∀ a, P a → Q a b) : Follows x (pure b) Q L := by
  intro ok n
  obtain ⟨a, ha, hPa⟩ := hx.run hs ok n
  refine ⟨fun b' m hb => ?_, fun hp => nomatch hp⟩
  cases hb
  exact Or.inr ⟨a, ha, hP a hPa⟩

/-- A computation that makes one request and goes on without, when the request is granted. -/
theorem Returns.of_granted {f : Bool → AllocM γ} {P : γ → Prop} (h : Returns (malloc >>= f) P)
    (hs : Silent (f true)) : Returns (f true) P := by
  intro n
  obtain ⟨a, n', ha, hP⟩ := h 0
  have hone : f true (fun _ => true) 1 = .ok (a, n') := ha
  refine ⟨a, n, ?_, hP⟩
  rw [hs] at hone ⊢
  cases hzero : f true (fun _ => true) 0 with
  | error e =>
    rw [hzero] at hone
    cases hone
  | ok r =>
    rw [hzero] at hone
    cases hone
    rfl

/-- A request both make. -/
theorem follows_ask_bind {f : Bool → AllocM γ} {g : Bool → Plan δ}
    (hf : ∀ b, Follows (f b) (g b) Q' L') : Follows (malloc >>= f) (Plan.ask >>= g) Q' L' :=
  follows_ask.bind (fun _ _ h => h ▸ hf _) fun _ h => h.elim

/-- What an allocation answers: a value, or nothing when a request is refused. -/
def GivesIf (P : α → Prop) (o : Option α) (granted : Bool) : Prop :=
  if granted then ∃ a, o = some a ∧ P a else o = none

theorem GivesIf.cases {P : α → Prop} {o : Option α} {b : Bool} (h : GivesIf P o b) :
    o = none ∨ ∃ a, o = some a ∧ P a := by
  cases b with
  | false => exact Or.inl h
  | true => exact Or.inr h

/-- One request for a value, and nothing more. -/
theorem Returns.follows_ask {f : Bool → AllocM (Option γ)} {P : γ → Prop}
    (h : Returns (malloc >>= f) fun o => ∃ a, o = some a ∧ P a) (hs : Silent (f true))
    (hfalse : f false = pure none) :
    Follows (malloc >>= f) Plan.ask (GivesIf P) fun _ => False := by
  intro ok n
  refine ⟨fun b m hb => ?_, fun hp => nomatch hp⟩
  cases hb
  change f (ok n) ok (n + 1) = _ ∨ ∃ a, f (ok n) ok (n + 1) = _ ∧ _
  cases hok : ok n with
  | false => exact Or.inr ⟨none, by rw [hfalse]; rfl, rfl⟩
  | true => exact Or.inr ((h.of_granted hs).run hs ok (n + 1))

/-- Going on after an allocation. -/
theorem Follows.bind_gives {x : AllocM (Option α)} {f : Option α → AllocM γ} {p : Plan Bool}
    {g : Bool → Plan δ} {P : α → Prop} (hx : Follows x p (GivesIf P) fun _ => False)
    (hsome : ∀ a, P a → Follows (f (some a)) (g true) Q' L')
    (hnone : Follows (f none) (g false) Q' L') : Follows (x >>= f) (p >>= g) Q' L' := by
  refine hx.bind (fun o b ho => ?_) fun _ h => h.elim
  cases b with
  | false =>
    cases ho
    exact hnone
  | true =>
    obtain ⟨a, rfl, ha⟩ := ho
    exact hsome a ha

/-- One request that the plan needs, and nothing more. -/
theorem Returns.follows_need {f : Bool → AllocM γ} {P : γ → Prop}
    (h : Returns (malloc >>= f) P) (hs : Silent (f true)) (hfalse : Leaves (f false) L') :
    Follows (malloc >>= f) Plan.need (fun a _ => P a) L' := by
  have hbind : Plan.need = Plan.need >>= pure := (bind_pure _).symm
  rw [hbind]
  refine AllocM.follows_need.bind ?_ ?_
  · rintro _ b rfl
    exact (h.of_granted hs).follows hs fun _ ha => ha
  · rintro _ rfl
    exact hfalse

/-- The same where the plan ends with the allocation. -/
theorem Follows.bind_last {x : AllocM (Option α)} {f : Option α → AllocM γ} {p : Plan Bool}
    {P : α → Prop} {R : γ → Bool → Prop} (hx : Follows x p (GivesIf P) fun _ => False)
    (hsome : ∀ a, P a → Follows (f (some a)) (pure true) R L')
    (hnone : Follows (f none) (pure false) R L') : Follows (x >>= f) p R L' := by
  rw [← bind_pure p]
  exact hx.bind_gives hsome hnone

end AllocM
end Courses.Lib
