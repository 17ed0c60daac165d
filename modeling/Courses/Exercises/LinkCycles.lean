import Courses.Lib.Chains

/-!
# Links with cycles

`has_cycle_constant` of lab 7, on a graph of links. A link is one of the nodes or `Link.empty`,
and each node has a rest. The fuel bounds the passes of the loop.
-/
namespace Courses.Exercises.LinkCycles

open Courses.Lib

/-- A link: a node, or `Link.empty`. -/
abbrev Link (N : Type) := Option N

inductive Exn
  | attributeError
  deriving DecidableEq

variable {N : Type} (graph : N → Link N)

/-- `link.rest`, which `Link.empty` does not have. -/
def rest : Link N → Except Exn (Link N)
  | none => .error .attributeError
  | some node => .ok (graph node)

variable [DecidableEq N]

/-- What one pass of the loop returns, or the cursors that it goes on with. -/
def pass (fast slow : Link N) : Except Exn (Bool ⊕ Link N × Link N) := do
  let slow ← rest graph slow
  let fast ← rest graph fast
  if fast = none then return .inl false
  let fast ← rest graph fast
  if fast = slow then return .inl true
  return .inr (fast, slow)

/-- The loop. Behind it there is no `return`, so it returns `None`, here `none`. -/
def cursorLoop : ℕ → Link N → Link N → Option (Except Exn (Option Bool))
  | 0, _, _ => none
  | fuel + 1, fast, slow =>
    if fast ≠ none ∧ slow ≠ none then
      match pass graph fast slow with
      | .error e => some (.error e)
      | .ok (.inl b) => some (.ok (some b))
      | .ok (.inr (fast, slow)) => cursorLoop fuel fast slow
    else some (.ok none)

def hasCycleConstant (fuel : ℕ) (link : Link N) : Option (Except Exn (Option Bool)) :=
  cursorLoop graph fuel link link

/-- Whether a condition with this value is met. -/
def truth (value : Option Bool) : Bool := value.getD false

variable {graph} {link : Link N} {k n fuel : ℕ}

omit [DecidableEq N] in
theorem rest_chain (h : chain graph link n ≠ none) :
    rest graph (chain graph link n) = .ok (chain graph link (n + 1)) := by
  obtain ⟨node, hnode⟩ := Option.ne_none_iff_exists'.1 h
  rw [chain_succ, hnode]
  rfl

omit [DecidableEq N] in
theorem chain_slow_ne_none (h : chain graph link (2 * k) ≠ none) : chain graph link k ≠ none :=
  fun hend => h (chain_eq_none_of_le hend (by omega))

/-- A pass while the cursors have gone `2 * k` and `k` steps. -/
theorem pass_chain (h : chain graph link (2 * k) ≠ none) :
    pass graph (chain graph link (2 * k)) (chain graph link k) = .ok
      (if chain graph link (2 * k + 1) = none then .inl false
      else if chain graph link (2 * (k + 1)) = chain graph link (k + 1) then .inl true
      else .inr (chain graph link (2 * (k + 1)), chain graph link (k + 1))) := by
  unfold pass
  rw [rest_chain (chain_slow_ne_none h), rest_chain h]
  by_cases hmid : chain graph link (2 * k + 1) = none
  · simp [hmid, bind, Except.bind, pure, Except.pure]
  · have hfast : rest graph (chain graph link (2 * k + 1)) = .ok (chain graph link (2 * (k + 1))) :=
      rest_chain hmid
    by_cases hmeet : chain graph link (2 * (k + 1)) = chain graph link (k + 1)
    · simp [hmid, hfast, hmeet, bind, Except.bind, pure, Except.pure]
    · simp [hmid, hfast, hmeet, bind, Except.bind, pure, Except.pure]

theorem cursorLoop_chain (fuel k : ℕ) :
    cursorLoop graph (fuel + 1) (chain graph link (2 * k)) (chain graph link k) =
      if chain graph link (2 * k) = none then some (.ok none)
      else if chain graph link (2 * k + 1) = none then some (.ok (some false))
      else if chain graph link (2 * (k + 1)) = chain graph link (k + 1) then some (.ok (some true))
      else cursorLoop graph fuel (chain graph link (2 * (k + 1))) (chain graph link (k + 1)) := by
  rw [cursorLoop]
  by_cases hend : chain graph link (2 * k) = none
  · simp [hend]
  · rw [if_pos ⟨hend, chain_slow_ne_none hend⟩, if_neg hend, pass_chain hend]
    split_ifs
    · rfl
    · rfl
    · rfl

/-- A loop that has ended ends in the same way with more fuel. -/
theorem cursorLoop_mono {fast slow : Link N} {r : Except Exn (Option Bool)} {fuel' : ℕ}
    (h : cursorLoop graph fuel fast slow = some r) (hle : fuel ≤ fuel') :
    cursorLoop graph fuel' fast slow = some r := by
  induction fuel generalizing fuel' fast slow with
  | zero => cases h
  | succ fuel ih =>
    cases fuel' with
    | zero => omega
    | succ fuel' =>
      rw [cursorLoop] at h ⊢
      split
      · rename_i hcursors
        rw [if_pos hcursors] at h
        cases hpass : pass graph fast slow with
        | error e =>
          rw [hpass] at h
          exact h
        | ok out =>
          rw [hpass] at h
          cases out with
          | inl b => exact h
          | inr cursors => exact ih h (by omega)
      · rename_i hcursors
        rwa [if_neg hcursors] at h

/-- On a cycle the cursors go on until they meet after `n` passes. -/
theorem cursorLoop_meets (hcycle : RunsIntoCycle graph link)
    (hmeet : chain graph link (2 * n) = chain graph link n) :
    ∀ fuel k, k < n → n ≤ k + fuel →
      cursorLoop graph fuel (chain graph link (2 * k)) (chain graph link k) =
        some (.ok (some true)) := by
  intro fuel
  induction fuel with
  | zero =>
    intro k hk hfuel
    omega
  | succ fuel ih =>
    intro k hk hfuel
    rw [cursorLoop_chain, if_neg (hcycle.ne_none _), if_neg (hcycle.ne_none _)]
    split
    · rfl
    · rename_i hapart
      have hne : k + 1 ≠ n := by
        intro heq
        subst heq
        exact hapart hmeet
      exact ih (k + 1) (by omega) (by omega)

/-- On a chain that has ended after `n` steps the loop ends, and the cursors do not meet. -/
theorem cursorLoop_ends (hcycle : ¬RunsIntoCycle graph link) (hend : chain graph link n = none) :
    ∀ fuel k, k ≤ n → n < k + fuel →
      ∃ r, cursorLoop graph fuel (chain graph link (2 * k)) (chain graph link k) = some (.ok r) ∧
        truth r = false := by
  intro fuel
  induction fuel with
  | zero =>
    intro k hk hfuel
    omega
  | succ fuel ih =>
    intro k hk hfuel
    rw [cursorLoop_chain]
    split_ifs with hfast hmid hmeet
    · exact ⟨none, rfl, rfl⟩
    · exact ⟨some false, rfl, rfl⟩
    · have hslow : chain graph link (k + 1) ≠ none := fun h =>
        hmid (chain_eq_none_of_le h (by omega))
      have hsum : k + 1 + (k + 1) = 2 * (k + 1) := by omega
      exact absurd (runsIntoCycle_of_eq (Nat.succ_pos k) hslow (hsum ▸ hmeet)) hcycle
    · have hlt : k ≠ n := by
        intro heq
        subst heq
        exact hfast (chain_eq_none_of_le hend (by omega))
      exact ih (k + 1) (by omega) (by omega)

/-- With more passes than there are nodes the loop ends. It follows the rest of nodes only, and
it returns a true value, which is `True`, if and only if the chain runs into a cycle. -/
theorem hasCycleConstant_correct {N : Type} [Fintype N] [DecidableEq N] (graph : N → Link N)
    (link : Link N) :
    ∃ r, (∀ fuel, Fintype.card N < fuel → hasCycleConstant graph fuel link = some (.ok r)) ∧
      (r = some true ↔ RunsIntoCycle graph link) ∧
      (truth r = false ↔ ¬RunsIntoCycle graph link) := by
  by_cases hcycle : RunsIntoCycle graph link
  · obtain ⟨n, hn, hle, hmeet⟩ := hcycle.meets
    refine ⟨some true, ?_, by simp [hcycle], by simp [hcycle, truth]⟩
    intro fuel hfuel
    exact cursorLoop_meets hcycle hmeet fuel 0 hn (by omega)
  · have hend : chain graph link (Fintype.card N) = none :=
      not_ne_iff.1 (mt runsIntoCycle_iff_ne_none.2 hcycle)
    obtain ⟨r, hrun, hr⟩ := cursorLoop_ends hcycle hend (Fintype.card N + 1) 0 (by omega) (by omega)
    refine ⟨r, ?_, ?_, by simp [hcycle, hr]⟩
    · intro fuel hfuel
      exact cursorLoop_mono hrun hfuel
    · constructor
      · intro htrue
        rw [htrue] at hr
        cases hr
      · intro h
        exact absurd h hcycle

example : hasCycleConstant (fun node : Fin 3 => some (node + 1)) 4 (some 0) =
    some (.ok (some true)) := by decide

end Courses.Exercises.LinkCycles
