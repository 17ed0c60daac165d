import Mathlib.Logic.Relation
import Mathlib.Order.WellFounded
import Mathlib.Data.Fintype.EquivFin
import Mathlib.Tactic

/-!
# Finite digraphs as edge lists

Reachability along an edge list, its decision by a search that never leaves a
vertex twice, and the two facts about acyclic graphs a wait-for graph rests on:
an edge that closes no cycle keeps the graph acyclic, and a nonempty set each
of whose members has an edge back into the set contains a cycle.
-/
namespace Courses.Lib

open Relation

variable {α : Type*}

/-- The edge relation of an edge list. -/
def Edge (E : List (α × α)) (a b : α) : Prop := (a, b) ∈ E

/-- No vertex reaches itself along at least one edge. -/
def Acyclic (E : List (α × α)) : Prop := ∀ a, ¬ TransGen (Edge E) a a

theorem acyclic_nil : Acyclic ([] : List (α × α)) := by
  intro a h
  obtain ⟨_, h, _⟩ := TransGen.head'_iff.mp h
  simp [Edge] at h

theorem Acyclic.subset {E F : List (α × α)} (h : Acyclic E) (hsub : F ⊆ E) : Acyclic F := by
  intro a ha
  have hle : Edge F ≤ Edge E := fun _ _ hab => hsub hab
  exact h a (TransGen.mono hle a a ha)

/-- Edges that leave `t` add no way to arrive at `t`. -/
theorem reflTransGen_of_out_edges {E F : List (α × α)} {t a : α}
    (hF : ∀ e ∈ F, e ∈ E ∨ e.1 = t) (h : ReflTransGen (Edge F) a t) :
    ReflTransGen (Edge E) a t := by
  induction h using ReflTransGen.head_induction_on with
  | refl => exact .refl
  | head hab _ ih =>
    rcases hF _ hab with he | rfl
    · exact .head he ih
    · exact .refl

theorem Acyclic.cons {E : List (α × α)} (h : Acyclic E) {a b : α}
    (hab : ¬ ReflTransGen (Edge E) b a) : Acyclic ((a, b) :: E) := by
  have hout : ∀ e ∈ (a, b) :: E, e ∈ E ∨ e.1 = a := by
    intro e he
    rcases List.mem_cons.mp he with rfl | he
    · exact .inr rfl
    · exact .inl he
  -- The new edge is on no cycle, so every edge of a cycle is an old one.
  have hold : ∀ x y, TransGen (Edge ((a, b) :: E)) x y →
      TransGen (Edge E) x y ∨ (ReflTransGen (Edge ((a, b) :: E)) x a ∧
        ReflTransGen (Edge ((a, b) :: E)) b y) := by
    intro x y hxy
    induction hxy with
    | single he =>
      rcases List.mem_cons.mp he with heq | he
      · obtain ⟨rfl, rfl⟩ := Prod.mk.inj heq
        exact .inr ⟨.refl, .refl⟩
      · exact .inl (.single he)
    | tail hxz he ih =>
      rcases List.mem_cons.mp he with heq | he'
      · obtain ⟨rfl, rfl⟩ := Prod.mk.inj heq
        exact .inr ⟨hxz.to_reflTransGen, .refl⟩
      · rcases ih with ih | ⟨hxa, hbz⟩
        · exact .inl (ih.tail he')
        · exact .inr ⟨hxa, hbz.tail he⟩
  intro x hx
  rcases hold x x hx with hx | ⟨hxa, hbx⟩
  · exact h x hx
  · exact hab (reflTransGen_of_out_edges hout (hbx.trans hxa))

/-- A nonempty set whose members all have a successor in the set is no part of
an acyclic graph. -/
theorem Acyclic.not_closed {E : List (α × α)} (h : Acyclic E) {S : Set α} (hS : S.Nonempty)
    (hsucc : ∀ a ∈ S, ∃ b ∈ S, Edge E a b) : False := by
  let V := { a : α // a ∈ E.map Prod.fst }
  have hfin : Finite V := (E.map Prod.fst).finite_toSet
  let R : V → V → Prop := fun a b => TransGen (Edge E) b.1 a.1
  have htrans : IsTrans V R := ⟨fun _ _ _ hab hbc => hbc.trans hab⟩
  have hirr : Std.Irrefl R := ⟨fun a ha => h a.1 ha⟩
  have hwf : WellFounded R := Finite.wellFounded_of_trans_of_irrefl R
  have hV : ∀ a ∈ S, a ∈ E.map Prod.fst := by
    intro a ha
    obtain ⟨b, _, hab⟩ := hsucc a ha
    exact List.mem_map.mpr ⟨(a, b), hab, rfl⟩
  obtain ⟨a, ha⟩ := hS
  obtain ⟨m, hm, hmin⟩ := hwf.has_min { v : V | v.1 ∈ S } ⟨⟨a, hV a ha⟩, ha⟩
  obtain ⟨b, hb, hmb⟩ := hsucc m.1 hm
  exact hmin ⟨b, hV b hb⟩ hb (.single hmb)

/-! ## Deciding reachability -/

/-- A walk out of `a` can be taken so that it never leaves `a` again. -/
theorem reflTransGen_leave {E : List (α × α)} {a b : α} (h : ReflTransGen (Edge E) a b) :
    a = b ∨ ∃ c, Edge E a c ∧ ReflTransGen (fun x y => Edge E x y ∧ x ≠ a) c b := by
  induction h with
  | refl => exact .inl rfl
  | @tail x y _ hxy ih =>
    by_cases hx : x = a
    · subst hx
      exact .inr ⟨y, hxy, .refl⟩
    · rcases ih with rfl | ⟨c, hac, hcx⟩
      · exact absurd rfl hx
      · exact .inr ⟨c, hac, hcx.tail ⟨hxy, hx⟩⟩

variable [DecidableEq α]

/-- Depth-first search that drops every edge out of a vertex once it is left;
the fuel bounds the number of vertices left. -/
def searchFuel : ℕ → List (α × α) → α → α → Bool
  | 0, _, a, b => a == b
  | n + 1, E, a, b =>
      a == b || E.any fun e => e.1 == a && searchFuel n (E.filter fun f => f.1 ≠ a) e.2 b

/-- Each vertex left takes an edge with it, so one unit of fuel an edge is enough. -/
def pathSearch (E : List (α × α)) (a b : α) : Bool := searchFuel E.length E a b

theorem searchFuel_iff (n : ℕ) (E : List (α × α)) (a b : α) (hn : E.length ≤ n) :
    searchFuel n E a b = true ↔ ReflTransGen (Edge E) a b := by
  induction n generalizing E a with
  | zero =>
    have hE : E = [] := List.length_eq_zero_iff.mp (Nat.le_zero.mp hn)
    subst hE
    constructor
    · intro h
      rw [eq_of_beq h]
    · intro h
      rcases reflTransGen_leave h with rfl | ⟨c, hac, _⟩
      · simp [searchFuel]
      · simp [Edge] at hac
  | succ n ih =>
    have hlen : ∀ c, (a, c) ∈ E → (E.filter fun f => f.1 ≠ a).length ≤ n := by
      intro c hc
      have hlt : (E.filter fun f => f.1 ≠ a).length < E.length :=
        List.length_filter_lt_length_iff_exists.mpr ⟨(a, c), hc, by simp⟩
      omega
    have hedge : ∀ x y, Edge (E.filter fun f => f.1 ≠ a) x y ↔ Edge E x y ∧ x ≠ a := by
      intro x y
      simp [Edge]
    simp only [searchFuel, Bool.or_eq_true, beq_iff_eq, List.any_eq_true, Bool.and_eq_true]
    constructor
    · rintro (rfl | ⟨⟨x, c⟩, he, rfl, hs⟩)
      · exact .refl
      · rw [ih _ _ (hlen c he)] at hs
        have hle : Edge (E.filter fun f => f.1 ≠ x) ≤ Edge E :=
          fun _ _ h => ((hedge _ _).mp h).1
        exact .head he (ReflTransGen.mono hle _ _ hs)
    · intro h
      rcases reflTransGen_leave h with rfl | ⟨c, hac, hcb⟩
      · exact .inl rfl
      · refine .inr ⟨(a, c), hac, rfl, ?_⟩
        rw [ih _ _ (hlen c hac)]
        have hle : (fun x y => Edge E x y ∧ x ≠ a) ≤ Edge (E.filter fun f => f.1 ≠ a) :=
          fun _ _ h => (hedge _ _).mpr h
        exact ReflTransGen.mono hle _ _ hcb

theorem pathSearch_iff (E : List (α × α)) (a b : α) :
    pathSearch E a b = true ↔ ReflTransGen (Edge E) a b :=
  searchFuel_iff _ E a b le_rfl

end Courses.Lib
