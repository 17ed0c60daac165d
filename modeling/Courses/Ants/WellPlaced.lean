import Courses.Ants.Changes

/-!
# Insects in their places

In a game, places and containers hold ants that have been made, and a bee is listed by the place
that it is in. Changes of a colony keep this, so it is there whenever an ant is deployed.
-/
namespace Courses.Ants

open Courses.Lib

/-- Places and containers hold ants that have been made, and each bee is in the place that it is
listed in, once. -/
structure WellPlaced (s : Colony) : Prop where
  antAt : ∀ p a, s.antAt p = some a → a < s.antCount
  contained : ∀ a x, (s.ants a).contained = some x → x < s.antCount
  place : ∀ p b, b ∈ s.beesAt p → (s.bees b).place = some p
  nodup : ∀ p, (s.beesAt p).Nodup

namespace WellPlaced

variable {s s' : Colony} {p : PlaceId} {a b : ℕ}

/-- Ants are held where they were, or are new. -/
theorem congr (h : WellPlaced s) (hantAt : s'.antAt = s.antAt) (hcount : s.antCount ≤ s'.antCount)
    (hcontained : ∀ a x, (s'.ants a).contained = some x → x < s.antCount)
    (hbeesAt : s'.beesAt = s.beesAt) (hplace : ∀ b, (s'.bees b).place = (s.bees b).place) :
    WellPlaced s' := by
  constructor
  · intro p a ha
    rw [hantAt] at ha
    exact (h.antAt p a ha).trans_le hcount
  · intro a x hx
    exact (hcontained a x hx).trans_le hcount
  · intro p b hb
    rw [hbeesAt] at hb
    rw [hplace]
    exact h.place p b hb
  · intro p
    rw [hbeesAt]
    exact h.nodup p

theorem modifyAnt (h : WellPlaced s) (a : ℕ) (f : Ant → Ant)
    (hf : ∀ x, (f (s.ants a)).contained = some x → x < s.antCount) :
    WellPlaced (s.modifyAnt a f) := by
  refine h.congr rfl le_rfl (fun c x hx => ?_) rfl fun _ => rfl
  by_cases hc : c = a
  · subst hc
    exact hf x (by simpa [Colony.modifyAnt] using hx)
  · exact h.contained c x (by simpa [Colony.modifyAnt, hc] using hx)

theorem modifyBee (h : WellPlaced s) (b : ℕ) (f : Bee → Bee) (hf : ∀ x, (f x).place = x.place) :
    WellPlaced (s.modifyBee b f) := by
  refine h.congr rfl le_rfl h.contained rfl fun c => ?_
  by_cases hc : c = b
  · subst hc
    simp [Colony.modifyBee, hf]
  · simp [Colony.modifyBee, hc]

theorem setAntAt (h : WellPlaced s) (p : PlaceId) (x : Option ℕ)
    (hx : ∀ a, x = some a → a < s.antCount) : WellPlaced (s.setAntAt p x) := by
  refine ⟨fun q a ha => ?_, h.contained, h.place, h.nodup⟩
  by_cases hq : q = p
  · subst hq
    exact hx a (by simpa [Colony.setAntAt] using ha)
  · exact h.antAt q a (by simpa [Colony.setAntAt, hq] using ha)

theorem setPlace_ant (h : WellPlaced s) (a : ℕ) (q : Option PlaceId) :
    WellPlaced (s.setPlace (.ant a) q) :=
  h.modifyAnt a (fun x => { x with place := q }) fun x hx => h.contained a x hx

theorem setArmor (h : WellPlaced s) (i : Insect) (armor : ℚ) : WellPlaced (s.setArmor i armor) := by
  cases i with
  | ant a =>
    exact h.modifyAnt a (fun x => { x with armor := armor }) fun x hx => h.contained a x hx
  | bee b => exact h.modifyBee b (fun x => { x with armor := armor }) fun _ => rfl

/-- No place lists a bee that is in no place. -/
theorem not_mem_of_place_none (h : WellPlaced s) (hb : (s.bees b).place = none) (q : PlaceId) :
    b ∉ s.beesAt q := by
  intro hmem
  have hplace := h.place q b hmem
  rw [hb] at hplace
  cases hplace

theorem removeBee (h : WellPlaced s) (hb : b ∈ s.beesAt p) :
    WellPlaced ((s.setBeesAt p ((s.beesAt p).erase b)).setPlace (.bee b) none) := by
  refine ⟨h.antAt, h.contained, fun q c hc => ?_, fun q => ?_⟩
  · have hmem : c ∈ s.beesAt q ∧ (q = p → c ≠ b) := by
      by_cases hq : q = p
      · subst hq
        have herase : c ∈ (s.beesAt q).erase b := by
          simpa [Colony.setPlace, Colony.modifyBee, Colony.setBeesAt] using hc
        exact ⟨List.mem_of_mem_erase herase, fun _ => ((h.nodup q).mem_erase_iff.1 herase).1⟩
      · refine ⟨?_, fun heq => absurd heq hq⟩
        simpa [Colony.setPlace, Colony.modifyBee, Colony.setBeesAt, hq] using hc
    have hne : c ≠ b := by
      intro heq
      subst heq
      have hplace := (h.place q c hmem.1).symm.trans (h.place p c hb)
      exact hmem.2 (Option.some.inj hplace) rfl
    have hplace := h.place q c hmem.1
    simpa [Colony.setPlace, Colony.modifyBee, Colony.setBeesAt, hne] using hplace
  · by_cases hq : q = p
    · subst hq
      simpa [Colony.setPlace, Colony.modifyBee, Colony.setBeesAt] using (h.nodup q).erase b
    · simpa [Colony.setPlace, Colony.modifyBee, Colony.setBeesAt, hq] using h.nodup q

theorem addBee (h : WellPlaced s) (hb : (s.bees b).place = none) (p : PlaceId) :
    WellPlaced ((s.setBeesAt p (s.beesAt p ++ [b])).setPlace (.bee b) (some p)) := by
  have hnew := h.not_mem_of_place_none hb
  refine ⟨h.antAt, h.contained, fun q c hc => ?_, fun q => ?_⟩
  · by_cases hcb : c = b
    · subst hcb
      have hq : q = p := by
        by_contra hq
        exact hnew q (by simpa [Colony.setPlace, Colony.modifyBee, Colony.setBeesAt, hq] using hc)
      simp [Colony.setPlace, Colony.modifyBee, hq]
    · have hmem : c ∈ s.beesAt q := by
        by_cases hq : q = p
        · subst hq
          simpa [Colony.setPlace, Colony.modifyBee, Colony.setBeesAt, hcb] using hc
        · simpa [Colony.setPlace, Colony.modifyBee, Colony.setBeesAt, hq] using hc
      have hplace := h.place q c hmem
      simpa [Colony.setPlace, Colony.modifyBee, Colony.setBeesAt, hcb] using hplace
  · by_cases hq : q = p
    · subst hq
      have hnodup : (s.beesAt q ++ [b]).Nodup :=
        List.nodup_append.2 ⟨h.nodup q, List.nodup_singleton b, by
          intro c hc d hd heq
          rw [List.mem_singleton.1 hd] at heq
          exact hnew q (heq ▸ hc)⟩
      simpa [Colony.setPlace, Colony.modifyBee, Colony.setBeesAt] using hnodup
    · simpa [Colony.setPlace, Colony.modifyBee, Colony.setBeesAt, hq] using h.nodup q

theorem removeInsect {i : Insect} (h : WellPlaced s) (hremove : s.removeInsect p i = .ok s') :
    WellPlaced s' := by
  unfold Colony.removeInsect at hremove
  split at hremove
  · split at hremove
    · rename_i hb
      cases hremove
      exact h.removeBee hb
    · cases hremove
  · repeat' split at hremove
    all_goals cases hremove
    · exact (h.setAntAt p _ (h.contained _)).setPlace_ant _ none
    · exact h
    · exact (h.setAntAt p none fun a ha => by cases ha).setPlace_ant _ none
    · exact h
    · exact (h.modifyAnt _ _ fun x hx => by cases hx).setPlace_ant _ none

theorem placeAddInsect (h : WellPlaced s) (ha : a < s.antCount)
    (hadd : s.placeAddInsect p (.ant a) = .ok s') : WellPlaced s' := by
  have hnew : ∀ x, some a = some x → x < s.antCount := fun x hx => Option.some.inj hx ▸ ha
  unfold Colony.placeAddInsect at hadd
  dsimp only at hadd
  repeat' split at hadd
  all_goals cases hadd
  · exact (h.setAntAt p _ hnew).setPlace_ant _ _
  · exact (h.modifyAnt _ _ hnew).setPlace_ant _ _
  · rename_i c hc _ _
    have hold : ∀ x, some c = some x → x < s.antCount :=
      fun x hx => Option.some.inj hx ▸ h.antAt p c hc
    have hcontains := h.modifyAnt a (fun x => { x with contained := some c }) hold
    exact (hcontains.setAntAt p _ hnew).setPlace_ant _ _

theorem construct (h : WellPlaced s) (kind : AntKind) : WellPlaced (s.construct kind) := by
  refine h.congr rfl (Nat.le_succ s.antCount) (fun a x hx => ?_) rfl fun _ => rfl
  by_cases ha : a = s.antCount
  · subst ha
    simp [Colony.construct] at hx
  · exact h.contained a x (by simpa [Colony.construct, ha] using hx)

theorem change (h : WellPlaced s) (hchange : Change s s') : WellPlaced s' := by
  cases hchange with
  | armor i armor => exact h.setArmor i armor
  | remove hremove => exact h.removeInsect hremove
  | addBee hplace hadd =>
    cases hadd
    exact h.addBee hplace _
  | construct kind => exact h.construct kind
  | deploy kind hadd => exact (h.construct kind).placeAddInsect (Nat.lt_succ_self _) hadd
  | effect effect b duration haffected => exact h.modifyBee b _ fun _ => rfl
  | account a f hf => exact h.modifyAnt a f fun x hx => h.contained a x ((hf _).contained ▸ hx)
  | counters => exact h.congr rfl le_rfl h.contained rfl fun _ => rfl

theorem changes (h : WellPlaced s) (hchanges : Changes s s') : WellPlaced s' := by
  induction hchanges with
  | refl => exact h
  | tail hchanges hchange ih => exact ih.change hchange

end WellPlaced

theorem wellPlaced_initialColony (plan : AssaultPlan) (food : ℤ) (queenCount : ℕ)
    (choices : ℕ → ℕ) : WellPlaced (initialColony plan food queenCount choices) := by
  constructor
  · intro p a ha
    cases ha
  · intro a x hx
    cases hx
  · intro p b hb
    have hhive : p = .hive ∧ b ∈ plan.allBees := by
      by_cases hp : p = .hive
      · exact ⟨hp, by simpa [initialColony, hp] using hb⟩
      · simp [initialColony, hp] at hb
    simp [initialColony, hhive.1, hhive.2]
  · intro p
    by_cases hp : p = .hive
    · simpa [initialColony, hp, AssaultPlan.allBees] using plan.nodup
    · simp [initialColony, hp]

/-! ## States in which ants are deployed -/

section Reachable

variable (L : Layout) (antTypes : List AntKind) (plan : AssaultPlan)

/-- The colony at the start of a turn of some game. -/
inductive TurnStart : Colony → Prop
  | first (food : ℤ) (queenCount : ℕ) (choices : ℕ → ℕ) :
      TurnStart (initialColony plan food queenCount choices)
  | next {s s' : Colony} {fuel : ℕ} {commands : List (Command × Bool)} (hstart : TurnStart s)
      (hturn : turn L antTypes plan fuel commands s = .ok () s') : TurnStart s'

/-- The colony while ants are deployed and removed: at the start of a turn, once the bees of the
turn have come, and after any command, with or without an exception. -/
inductive Deploying : Colony → Prop
  | start {s : Colony} (hstart : TurnStart L antTypes plan s) : Deploying s
  | bees {s s' : Colony} (hstart : TurnStart L antTypes plan s)
      (hbees : hiveStrategy L plan s = .ok () s') : Deploying s'
  | command {s : Colony} (hdeploying : Deploying s) (command : Command) :
      Deploying (finalState (runCommand L antTypes command s))

end Reachable

section Invariant

variable {L : Layout} {antTypes : List AntKind} {plan : AssaultPlan} {s s' : Colony}

/-- The insects stay where they may be. -/
def KeepsPlaces (s s' : Colony) : Prop := WellPlaced s → WellPlaced s'

instance : Std.Refl KeepsPlaces := ⟨fun _ h => h⟩

instance : IsTrans Colony KeepsPlaces := ⟨fun _ _ _ h h' hs => h' (h hs)⟩

theorem moves_keepsPlaces (antTypes : List AntKind) (plan : AssaultPlan) (fuel : ℕ)
    (commands : List (Command × Bool)) :
    Effect KeepsPlaces (moves L antTypes plan fuel commands) := by
  have hchanges : ∀ s s', Changes s s' → KeepsPlaces s s' := fun s s' hchanges h =>
    h.changes hchanges
  have hset : ∀ (b : ℕ) (s : Colony) (action : Action),
      KeepsPlaces s (s.modifyBee b fun x => { x with action := action }) :=
    fun b s action h => h.modifyBee b (fun x => { x with action := action }) fun _ => rfl
  exact moves_effect hchanges (fun b => beeAction_effect hchanges (hset b)) antTypes plan fuel
    commands

theorem TurnStart.wellPlaced (h : TurnStart L antTypes plan s) : WellPlaced s := by
  induction h with
  | first food queenCount choices => exact wellPlaced_initialColony plan food queenCount choices
  | @next s s' fuel commands hstart hturn ih =>
    have hmoves := @moves_keepsPlaces L antTypes plan fuel commands s ih
    unfold turn at hturn
    split at hturn
    · cases hturn
    · rename_i u t hrun
      rw [hrun] at hmoves
      split at hturn
      · cases hturn
      · cases hturn
        exact hmoves.congr rfl le_rfl hmoves.contained rfl fun _ => rfl

theorem Deploying.wellPlaced (h : Deploying L antTypes plan s) : WellPlaced s := by
  induction h with
  | start hstart => exact hstart.wellPlaced
  | @bees s s' hstart hbees =>
    have hchanges := @hiveStrategy_changes L plan s
    rw [hbees] at hchanges
    exact hstart.wellPlaced.changes hchanges
  | command hdeploying command ih => exact ih.changes (runCommand_changes antTypes command _)

/-- Whatever happens in a turn, with or without an exception, each bee is listed at most once, in
the place that it is in. -/
theorem bee_in_one_place (h : TurnStart L antTypes plan s) (fuel : ℕ)
    (commands : List (Command × Bool)) (b : ℕ) :
    let s' := finalState (moves L antTypes plan fuel commands s)
    (∀ p, b ∈ s'.beesAt p → (s'.bees b).place = some p ∧ (s'.beesAt p).count b = 1) ∧
      ∀ p q, b ∈ s'.beesAt p → b ∈ s'.beesAt q → p = q := by
  have hplaced := moves_keepsPlaces (L := L) antTypes plan fuel commands s h.wellPlaced
  constructor
  · intro p hp
    exact ⟨hplaced.place p b hp, List.count_eq_one_of_mem (hplaced.nodup p) hp⟩
  · intro p q hp hq
    exact Option.some.inj ((hplaced.place p b hp).symm.trans (hplaced.place q b hq))

end Invariant

/-- The bee comes to the inner place, and goes on to the outer one. -/
theorem bee_in_one_place_first :
    let L := Layout.configure (dryLayout 1 2)
    let plan : AssaultPlan := ⟨[(0, [0])], fun _ => .bee, fun _ => 3, List.nodup_singleton _,
      List.nodup_singleton _⟩
    let s := finalState (moves L AntKind.all plan 3 [(.deploy "tunnel_0_0" "Wall", false)]
      (initialColony plan 4 0 fun _ => 0))
    s.beesAt (.tunnel 0) = [0] ∧ ∀ p, 0 ∈ s.beesAt p → (s.bees 0).place = some p := by
  intro L plan s
  refine ⟨by decide +kernel, fun p hp => ?_⟩
  exact ((bee_in_one_place (.first 4 0 fun _ => 0) 3 _ 0).1 p hp).1

end Courses.Ants
