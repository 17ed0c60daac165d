import Mathlib.Algebra.Group.Subgroup.Basic
import Mathlib.GroupTheory.Perm.Support

/-!
# Classes of transpositions modulo a group

Two elements are linked when exchanging them amounts, up to a group of
permutations, to exchanging two fixed ones. Linked elements form a class, and
a rotation of three elements in the group draws all three into the class as
soon as one of them is in it. Where everything a permutation moves is linked,
the permutation or its product with one transposition is in the group.
-/

namespace Courses.SwapClasses

open Equiv

variable {α : Type*} [DecidableEq α] (G : Subgroup (Perm α))

/-- The group rotates three different elements. -/
def Rotates (x y z : α) : Prop :=
  x ≠ y ∧ y ≠ z ∧ x ≠ z ∧ swap x y * swap y z ∈ G

/-- Exchanging `x` and `y` amounts to exchanging `u` and `v`. -/
def Linked (u v x y : α) : Prop :=
  x = y ∨ swap x y * swap u v ∈ G

variable {G} {u v w x y z c d e : α}

theorem swap_mul_swap (hxy : x ≠ y) (hxz : x ≠ z) :
    swap x y * swap y z = swap y z * swap z x := by
  rw [swap_mul_eq_mul_swap, swap_inv, swap_apply_of_ne_of_ne hxy hxz, swap_apply_left,
    swap_comm z x]

theorem conj_swap_mul_swap (g : Perm α) :
    g * (swap c d * swap d e) * g⁻¹ = swap (g c) (g d) * swap (g d) (g e) := by
  rw [swap_apply_apply, swap_apply_apply]
  simp [mul_assoc]

theorem Rotates.turn (h : Rotates G x y z) : Rotates G y z x := by
  obtain ⟨hxy, hyz, hxz, hmem⟩ := h
  exact ⟨hyz, hxz.symm, hxy.symm, swap_mul_swap hxy hxz ▸ hmem⟩

theorem Rotates.flip (h : Rotates G x y z) : Rotates G z y x := by
  obtain ⟨hxy, hyz, hxz, hmem⟩ := h
  refine ⟨hyz.symm, hxy.symm, hxz.symm, ?_⟩
  have hinv := G.inv_mem hmem
  rwa [mul_inv_rev, swap_inv, swap_inv, swap_comm y z, swap_comm x y] at hinv

theorem Linked.symm (h : Linked G u v x y) : Linked G u v y x := by
  rcases h with rfl | h
  · exact Or.inl rfl
  · exact Or.inr (swap_comm x y ▸ h)

/-- Three linked elements are rotated. -/
theorem Linked.rotates (h : Linked G u v x y) (h' : Linked G u v y z) (hxy : x ≠ y)
    (hyz : y ≠ z) (hxz : x ≠ z) : Rotates G x y z := by
  have hmem := G.mul_mem (h.resolve_left hxy) (G.inv_mem (h'.resolve_left hyz))
  rw [mul_inv_rev, swap_inv, swap_inv, mul_assoc, swap_mul_self_mul] at hmem
  exact ⟨hxy, hyz, hxz, hmem⟩

/-- A rotation links its second pair as soon as its first pair is linked. -/
theorem Rotates.linked (h : Rotates G x y z) (hxy : Linked G u v x y) : Linked G u v y z := by
  have hmem := G.mul_mem (G.inv_mem h.2.2.2) (hxy.resolve_left h.1)
  rw [mul_inv_rev, swap_inv, swap_inv, mul_assoc, swap_mul_self_mul] at hmem
  exact Or.inr hmem

theorem Linked.trans (h : Linked G u v x y) (h' : Linked G u v y z) : Linked G u v x z := by
  by_cases hxy : x = y
  · exact hxy ▸ h'
  by_cases hyz : y = z
  · exact hyz ▸ h
  by_cases hxz : x = z
  · exact Or.inl hxz
  exact (h.rotates h' hxy hyz hxz).flip.turn.linked h.symm

theorem linked_base : Linked G u v u v := by
  right
  rw [swap_mul_self]
  exact G.one_mem

/-- Two elements linked to the base of a rotation and different from `c`. -/
theorem exists_linked_pair (h : Rotates G u v w) (c : α) :
    ∃ x y, x ≠ y ∧ x ≠ c ∧ y ≠ c ∧ Linked G u v u x ∧ Linked G u v u y := by
  have huv : Linked G u v u v := linked_base
  have huw : Linked G u v u w := huv.trans (h.linked huv)
  by_cases hu : u = c
  · exact ⟨v, w, h.2.1, hu ▸ h.1.symm, hu ▸ h.2.2.1.symm, huv, huw⟩
  by_cases hv : v = c
  · exact ⟨u, w, h.2.2.1, hu, hv ▸ h.2.1.symm, Or.inl rfl, huw⟩
  exact ⟨u, v, h.1, hu, hv, Or.inl rfl, huv⟩

/-- A rotation of an element of the class draws the next one into the class. -/
theorem Rotates.absorb (h : Rotates G u v w) (hc : Linked G u v u c) (hr : Rotates G c d e) :
    Linked G u v u d := by
  by_contra hd
  have he : ¬Linked G u v u e := by
    intro he
    exact hd (hc.trans (hr.turn.turn.linked (he.symm.trans hc)))
  obtain ⟨x, y, hxy, hxc, hyc, hx, hy⟩ := exists_linked_pair h c
  have hdx : d ≠ x := fun heq => hd (heq ▸ hx)
  have hdy : d ≠ y := fun heq => hd (heq ▸ hy)
  have hex : e ≠ x := fun heq => he (heq ▸ hx)
  have hey : e ≠ y := fun heq => he (heq ▸ hy)
  -- Conjugate the rotation by one that takes `c` to `x` and leaves `d` and `e`.
  have hg := ((hc.symm.trans hx).rotates (hx.symm.trans hy) hxc.symm hxy hyc.symm).2.2.2
  obtain ⟨hcd, hde, hce, hmem⟩ := hr
  have hconj := G.mul_mem (G.mul_mem hg hmem) (G.inv_mem hg)
  have hrot : swap c x * swap x y * (swap c d * swap d e) * (swap c x * swap x y)⁻¹ =
      swap x d * swap d e := by
    have hgc : (swap c x * swap x y) c = x := by
      rw [Perm.mul_apply, swap_apply_of_ne_of_ne hxc.symm hyc.symm, swap_apply_left]
    have hgd : (swap c x * swap x y) d = d := by
      rw [Perm.mul_apply, swap_apply_of_ne_of_ne hdx hdy, swap_apply_of_ne_of_ne hcd.symm hdx]
    have hge : (swap c x * swap x y) e = e := by
      rw [Perm.mul_apply, swap_apply_of_ne_of_ne hex hey, swap_apply_of_ne_of_ne hce.symm hex]
    rw [conj_swap_mul_swap, hgc, hgd, hge]
  rw [hrot] at hconj
  have hlast := G.mul_mem hmem (G.inv_mem hconj)
  rw [mul_inv_rev, swap_inv, swap_inv, mul_assoc, swap_mul_self_mul, swap_comm x d] at hlast
  have hcdx : Rotates G c d x := ⟨hcd, hdx, hxc.symm, hlast⟩
  exact hd (hc.trans (hcdx.turn.turn.linked (hx.symm.trans hc)))

/-- A rotation of an element of the class lies in the class. -/
theorem Rotates.absorb_both (h : Rotates G u v w) (hc : Linked G u v u c)
    (hr : Rotates G c d e) : Linked G u v u d ∧ Linked G u v u e :=
  ⟨h.absorb hc hr, h.absorb hc hr.flip.turn.turn⟩

/-- A permutation of linked elements is in the group up to one transposition. -/
theorem mem_or_swap_mul_mem [Fintype α] {P : α → Prop}
    (hlinked : ∀ x y, P x → P y → Linked G u v x y) (σ : Perm α)
    (hσ : ∀ x, σ x ≠ x → P x) : σ ∈ G ∨ swap u v * σ ∈ G := by
  induction hk : σ.support.card using Nat.strong_induction_on generalizing σ with
  | _ k ih =>
    by_cases hone : σ = 1
    · exact Or.inl (hone ▸ G.one_mem)
    obtain ⟨x, hx⟩ : ∃ x, σ x ≠ x := by
      by_contra hall
      push Not at hall
      exact hone (Equiv.ext hall)
    have hσx : P (σ x) := hσ _ fun h => hx (σ.injective h)
    have hswap := (hlinked x (σ x) (hσ x hx) hσx).resolve_left hx.symm
    have hcancel : swap x (σ x) * (swap x (σ x) * σ) = σ := swap_mul_self_mul _ _ _
    have hmoved : ∀ y, (swap x (σ x) * σ) y ≠ y → P y := fun y hy =>
      hσ y (Perm.mem_support.mp
        (Perm.mem_support_swap_mul_imp_mem_support_ne (Perm.mem_support.mpr hy)).1)
    rcases ih _ (hk ▸ Perm.card_support_swap_mul hx) _ hmoved rfl with hmem | hmem
    · right
      have hprod := G.mul_mem (G.inv_mem hswap) hmem
      rwa [mul_inv_rev, swap_inv, swap_inv, mul_assoc, hcancel] at hprod
    · left
      have hprod := G.mul_mem hswap hmem
      rwa [mul_assoc, swap_mul_self_mul, hcancel] at hprod

end Courses.SwapClasses
