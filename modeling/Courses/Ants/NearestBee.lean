import Courses.Ants.Game
import Mathlib.Order.Bounds.Basic

/-!
# The nearest bee

`nearest_bee` follows the entrances from the place of the thrower and stops at the first place in
range that holds a bee, or at the hive.
-/
namespace Courses.Ants

section NearestBee

variable {L : Layout} {s : Colony} {minRange maxRange : ℤ}

/-- The place `d` entrances away from `p` is before the hive, holds a bee and is in range, where
`p` itself is `ind` entrances away from the thrower. -/
def Offers (L : Layout) (s : Colony) (minRange maxRange : ℤ) (ind : ℕ) (p : PlaceId) (d : ℕ) :
    Prop :=
  minRange ≤ (ind + d : ℕ) ∧ ((ind + d : ℕ) : ℤ) ≤ maxRange ∧
    ∃ q, L.along p d = some q ∧ q ≠ .hive ∧ s.beesAt q ≠ []

/-- What is to be returned: a bee of the first place that offers one, and none if no place does. -/
def IsNearest (L : Layout) (s : Colony) (minRange maxRange : ℤ) (ind : ℕ) (p : PlaceId)
    (target : Option ℕ) : Prop :=
  (∀ b, target = some b → ∃ d q, IsLeast {d | Offers L s minRange maxRange ind p d} d ∧
    L.along p d = some q ∧ b ∈ s.beesAt q) ∧
    (target = none ↔ ¬ ∃ d, Offers L s minRange maxRange ind p d)

theorem randomOrNone_mem {α : Type} {xs : List α} (hxs : xs ≠ []) (s : Colony) :
    ∃ x s', randomOrNone xs s = .ok (some x) s' ∧ x ∈ xs := by
  have hlt : s.choices 0 % xs.length < xs.length := Nat.mod_lt _ (List.length_pos_iff.mpr hxs)
  have hempty : xs.isEmpty = false := by simpa using hxs
  have hget : xs[s.choices 0 % xs.length]? = some xs[s.choices 0 % xs.length] :=
    List.getElem?_eq_getElem hlt
  refine ⟨xs[s.choices 0 % xs.length], { s with choices := fun n => s.choices (n + 1) }, ?_,
    List.getElem_mem hlt⟩
  simp only [randomOrNone, hempty]
  change EStateM.map some (randomChoice xs) s = _
  have hchoice : randomChoice xs s =
      .ok xs[s.choices 0 % xs.length] { s with choices := fun n => s.choices (n + 1) } := by
    have hstate : (get : GameM Colony) s = .ok s s := rfl
    unfold randomChoice
    rw [Courses.Lib.eval_bind_ok hstate, hget]
    rfl
  simp only [EStateM.map, hchoice]

/-- A place that offers no bee may be passed. -/
theorem IsNearest.of_next {ind : ℕ} {p q : PlaceId} {target : Option ℕ}
    (hnext : L.entrance p = some q) (hpass : ¬ Offers L s minRange maxRange ind p 0)
    (h : IsNearest L s minRange maxRange (ind + 1) q target) :
    IsNearest L s minRange maxRange ind p target := by
  have halong : ∀ d, L.along p (d + 1) = L.along q d := by
    intro d
    rw [Layout.along, hnext, Option.bind_some]
  have hshift : ∀ d, Offers L s minRange maxRange ind p (d + 1) ↔
      Offers L s minRange maxRange (ind + 1) q d := by
    intro d
    rw [Offers, Offers, halong, show ind + (d + 1) = ind + 1 + d by omega]
  constructor
  · intro b hb
    obtain ⟨d, r, hleast, hr, hmem⟩ := h.1 b hb
    refine ⟨d + 1, r, ⟨(hshift d).mpr hleast.1, ?_⟩, by rw [halong, hr], hmem⟩
    intro e he
    cases e with
    | zero => exact absurd he hpass
    | succ e => exact Nat.succ_le_succ (hleast.2 ((hshift e).mp he))
  · rw [h.2]
    apply not_congr
    constructor
    · intro hex
      obtain ⟨d, hd⟩ := hex
      exact ⟨d + 1, (hshift d).mpr hd⟩
    · intro hex
      obtain ⟨d, hd⟩ := hex
      cases d with
      | zero => exact absurd hd hpass
      | succ d => exact ⟨d, (hshift d).mp hd⟩

theorem IsNearest.none {ind : ℕ} {p : PlaceId} (h : ∀ d, ¬ Offers L s minRange maxRange ind p d) :
    IsNearest L s minRange maxRange ind p none := by
  constructor
  · intro b hb
    cases hb
  · simp [h]

theorem along_hive (hhive : L.entrance .hive = none) (d : ℕ) {q : PlaceId}
    (h : L.along .hive d = some q) : q = .hive := by
  cases d with
  | zero => exact (Option.some.inj h).symm
  | succ d => simp [Layout.along, hhive] at h

/-- The loop from a place from which `n` entrances lead to the hive. -/
theorem nearestBeeLoop_isNearest (hhive : L.entrance .hive = none) (n : ℕ) :
    ∀ (p : PlaceId) (ind fuel : ℕ), L.along p n = some .hive → n < fuel →
      ∃ target s', nearestBeeLoop L minRange maxRange fuel ind (some p) s = .ok target s' ∧
        IsNearest L s minRange maxRange ind p target := by
  induction n with
  | zero =>
    intro p ind fuel hp hfuel
    obtain rfl : p = .hive := Option.some.inj hp
    obtain ⟨fuel, rfl⟩ := Nat.exists_eq_succ_of_ne_zero (Nat.ne_of_gt hfuel)
    refine ⟨none, s, rfl, IsNearest.none ?_⟩
    intro d hd
    obtain ⟨-, -, q, hq, hne, -⟩ := hd
    exact hne (along_hive hhive d hq)
  | succ n ih =>
    intro p ind fuel hp hfuel
    obtain ⟨fuel, rfl⟩ := Nat.exists_eq_succ_of_ne_zero (Nat.ne_of_gt (Nat.zero_lt_of_lt hfuel))
    have hne : p ≠ .hive := by
      rintro rfl
      simp [Layout.along, hhive] at hp
    have hstep : nearestBeeLoop L minRange maxRange (fuel + 1) ind (some p) s =
        (if (ind : ℤ) < minRange ∨ s.beesAt p = [] then
          nearestBeeLoop L minRange maxRange fuel (ind + 1) (L.entrance p)
        else if (ind : ℤ) > maxRange then return none
        else randomOrNone (s.beesAt p)) s := by
      cases p with
      | hive => exact absurd rfl hne
      | queenPlace => rfl
      | tunnel k => rfl
    rw [hstep]
    by_cases hpass : (ind : ℤ) < minRange ∨ s.beesAt p = []
    · rw [if_pos hpass]
      obtain ⟨q, hq, hqn⟩ := Option.bind_eq_some_iff.mp hp
      rw [hq]
      obtain ⟨target, s', hrun, hnearest⟩ := ih q (ind + 1) fuel hqn (by omega)
      refine ⟨target, s', hrun, hnearest.of_next hq ?_⟩
      intro hoffer
      obtain ⟨hmin, -, r, hr, -, hbees⟩ := hoffer
      obtain rfl : p = r := Option.some.inj hr
      cases hpass with
      | inl hlt => exact absurd hmin (by simpa using hlt)
      | inr hnil => exact hbees hnil
    · rw [if_neg hpass]
      obtain ⟨hmin, hbees⟩ := not_or.mp hpass
      by_cases hfar : (ind : ℤ) > maxRange
      · rw [if_pos hfar]
        refine ⟨none, s, rfl, IsNearest.none ?_⟩
        intro d hd
        have hmax := hd.2.1
        push_cast at hmax
        omega
      · rw [if_neg hfar]
        obtain ⟨b, s', hrun, hb⟩ := randomOrNone_mem hbees s
        have hoffer : Offers L s minRange maxRange ind p 0 :=
          ⟨by simpa using hmin, by simpa using hfar, p, rfl, hne, hbees⟩
        refine ⟨some b, s', hrun, ?_, ?_⟩
        · intro c hc
          obtain rfl : b = c := Option.some.inj hc
          exact ⟨0, p, ⟨hoffer, fun d _ => Nat.zero_le d⟩, rfl, hb⟩
        · simp only [reduceCtorEq, false_iff, not_not]
          exact ⟨0, hoffer⟩

end NearestBee

/-- A thrower in a tunnel of a layout that `wet_layout` makes. -/
theorem nearestBee_isNearest (tunnels length : ℕ) (moatFrequency : ℤ) (s : Colony)
    (minRange maxRange : ℤ) (a tunnel step : ℕ) (htunnel : tunnel < tunnels)
    (hstep : step < length)
    (hplace : (s.ants a).place = some (.tunnel (tunnel * length + step))) :
    let L := Layout.configure (wetLayout tunnels length moatFrequency)
    ∃ bound, ∀ fuel, bound ≤ fuel → ∃ target s',
      nearestBee L minRange maxRange fuel a s = .ok target s' ∧
        IsNearest L s minRange maxRange 0 (.tunnel (tunnel * length + step)) target := by
  intro L
  have hlinked : Linked tunnels length L := wetLayout_linked tunnels length moatFrequency
  have halong : L.along (.tunnel (tunnel * length + step)) (length - step) = some .hive := by
    rw [hlinked.along htunnel (length - step) step hstep, if_neg (by omega), if_pos (by omega)]
  refine ⟨length - step + 1, ?_⟩
  intro fuel hfuel
  have hrun : nearestBee L minRange maxRange fuel a s =
      nearestBeeLoop L minRange maxRange fuel 0 (s.ants a).place s := rfl
  rw [hrun, hplace]
  exact nearestBeeLoop_isNearest hlinked.hive (length - step) _ 0 fuel halong hfuel

/-- A thrower with range 1 to 2, two places away from the hive. -/
theorem nearestBee_isNearest_edge :
    let L := Layout.configure (wetLayout 1 2 3)
    let s := { initialColony ⟨[], fun _ => .bee, fun _ => 1, List.nodup_nil, List.nodup_nil⟩ 2 0
        (fun _ => 0) with
      ants := fun _ => ⟨.thrower, 1, 1, some (.tunnel 0), none, 0, false, []⟩ }
    ∃ bound, ∀ fuel, bound ≤ fuel → ∃ target s', nearestBee L 1 2 fuel 0 s = .ok target s' ∧
      IsNearest L s 1 2 0 (.tunnel 0) target :=
  nearestBee_isNearest 1 2 3 _ 1 2 0 0 0 (by decide) (by decide) rfl

end Courses.Ants
