import Courses.Ants.Game
import Mathlib.Logic.Relation

/-!
# Changes of a colony

What the commands and actions of a game are made of. Whatever they do, and whether or not they
raise an exception, is a sequence of changes; what each change keeps, all of them keep.
-/
namespace Courses.Ants

open Courses.Lib

/-- What stays when an ant keeps account of what it has done. -/
structure SameAnt (x y : Ant) : Prop where
  kind : y.kind = x.kind
  armor : y.armor = x.armor
  place : y.place = x.place
  contained : y.contained = x.contained
  imposter : y.imposter = x.imposter

/-- Neither a hornet nor a boss. -/
def BeeKind.Affected (kind : BeeKind) : Prop := kind ≠ .hornet ∧ kind ≠ .boss

inductive Change : Colony → Colony → Prop
  | armor (s : Colony) (i : Insect) (armor : ℚ) : Change s (s.setArmor i armor)
  | remove {s s' : Colony} {p : PlaceId} {i : Insect} (h : s.removeInsect p i = .ok s') :
      Change s s'
  | addBee {s s' : Colony} {p : PlaceId} {b : ℕ} (hplace : (s.bees b).place = none)
      (h : s.placeAddInsect p (.bee b) = .ok s') : Change s s'
  | construct (s : Colony) (kind : AntKind) : Change s (s.construct kind)
  | deploy {s s' : Colony} {p : PlaceId} (kind : AntKind)
      (h : (s.construct kind).placeAddInsect p (.ant s.antCount) = .ok s') : Change s s'
  | effect (s : Colony) (effect : StatusEffect) (b : ℕ) (duration : ℤ)
      (haffected : (s.bees b).kind.Affected) :
      Change s (s.modifyBee b fun x =>
        { x with action := .durationEffect effect duration x.action })
  | account (s : Colony) (a : ℕ) (f : Ant → Ant) (hf : ∀ x, SameAnt x (f x)) :
      Change s (s.modifyAnt a f)
  | counters (s : Colony) (time food numBees : ℤ) (activeBees : List ℕ) (choices : ℕ → ℕ) :
      Change s { s with
        time := time, food := food, numBees := numBees, activeBees := activeBees,
        choices := choices }

/-- A sequence of changes. -/
abbrev Changes : Colony → Colony → Prop := Relation.ReflTransGen Change

/-- What bees and dying ants do is allowed: insects are hurt and removed, and bees are moved. -/
structure AllowsMoves (R : Colony → Colony → Prop) : Prop where
  armor : ∀ (s : Colony) (i : Insect) (armor : ℚ), R s (s.setArmor i armor)
  remove : ∀ (s s' : Colony) (p : PlaceId) (i : Insect), s.removeInsect p i = .ok s' → R s s'
  addBee : ∀ (s s' : Colony) (p : PlaceId) (b : ℕ), (s.bees b).place = none →
    s.placeAddInsect p (.bee b) = .ok s' → R s s'

theorem allowsMoves_changes : AllowsMoves Changes := by
  constructor
  · intro s i armor
    exact .single (.armor s i armor)
  · intro s s' p i h
    exact .single (.remove h)
  · intro s s' p b hplace h
    exact .single (.addBee hplace h)

section Effects

variable {L : Layout} {R : Colony → Colony → Prop} [Std.Refl R] [IsTrans Colony R]

omit [IsTrans Colony R] in
theorem act_changes {f : Colony → Except Exn Colony} (h : ∀ s s', f s = .ok s' → R s s') :
    Effect R (act f) := by
  intro s
  unfold act
  cases hf : f s with
  | error e => exact Std.Refl.refl s
  | ok s' => exact h s s' hf

theorem modify_changes {f : Colony → Colony} (h : ∀ s, Change s (f s)) :
    Effect Changes (modify f : GameM Unit) :=
  Effect.modify fun s => .single (h s)

theorem removeFromPlace_changes (hR : AllowsMoves R) (i : Insect) :
    Effect R (removeFromPlace i) := by
  unfold removeFromPlace
  refine Effect.bind Effect.get fun s => ?_
  split
  · exact Effect.throw _
  · exact act_changes fun s s' h => hR.remove s s' _ i h

theorem insectReduceArmor_changes (hR : AllowsMoves R) (i : Insect) (amount : ℚ) :
    Effect R (insectReduceArmor i amount) := by
  unfold insectReduceArmor
  refine Effect.bind Effect.get fun s => ?_
  refine Effect.bind (Effect.modify fun s => hR.armor s i _) fun _ => ?_
  exact Effect.ite (removeFromPlace_changes hR i) (Effect.pure _)

theorem beeReduceArmor_changes (hR : AllowsMoves R) (b : ℕ) (amount : ℚ) :
    Effect R (beeReduceArmor b amount) := by
  unfold beeReduceArmor
  refine Effect.bind Effect.get fun s => ?_
  split
  · have hreduce :=
      insectReduceArmor_changes hR (.bee b) (amount * damageCap / (damageCap + amount))
    exact Effect.ite (Effect.bind (Effect.throw _) fun _ => hreduce) hreduce
  · exact insectReduceArmor_changes hR _ _

theorem damageBees_changes (hR : AllowsMoves R) (a : ℕ) (bees : List ℕ) :
    Effect R (damageBees a bees) := by
  induction bees with
  | nil => exact Effect.pure _
  | cons b bees ih =>
    unfold damageBees
    refine Effect.bind Effect.get fun s => ?_
    exact Effect.bind (beeReduceArmor_changes hR b _) fun _ => ih

theorem damageBeesAt_changes (hR : AllowsMoves R) (a : ℕ) (place : Option PlaceId) :
    Effect R (damageBeesAt a place) := by
  unfold damageBeesAt
  split
  · exact Effect.throw _
  · exact Effect.bind Effect.get fun s => damageBees_changes hR a _

theorem antReduceArmor_changes (hR : AllowsMoves R) (a : ℕ) (amount : ℚ) :
    Effect R (antReduceArmor a amount) := by
  unfold antReduceArmor
  refine Effect.bind Effect.get fun s => ?_
  dsimp only
  split
  · refine Effect.bind (insectReduceArmor_changes hR _ _) fun _ => ?_
    refine Effect.bind Effect.get fun s' => ?_
    exact Effect.ite (damageBeesAt_changes hR _ _) (Effect.pure _)
  · refine Effect.bind (Effect.modify fun s => hR.armor s _ _) fun _ => ?_
    have hremove := removeFromPlace_changes hR (.ant a)
    exact Effect.ite (Effect.bind (Effect.throw _) fun _ => hremove) hremove
  · exact insectReduceArmor_changes hR _ _

/-! ## Actions of ants -/

theorem randomChoice_changes {α : Type} (xs : List α) : Effect Changes (randomChoice xs) := by
  unfold randomChoice
  refine Effect.bind Effect.get fun s => ?_
  dsimp only
  split
  · exact Effect.throw _
  · refine Effect.bind (modify_changes fun s => ?_) fun _ => Effect.pure _
    exact .counters s s.time s.food s.numBees s.activeBees _

theorem randomOrNone_changes {α : Type} (xs : List α) : Effect Changes (randomOrNone xs) := by
  unfold randomOrNone
  refine Effect.ite (Effect.pure _) ?_
  rw [map_eq_bind_pure_comp]
  exact Effect.bind (randomChoice_changes xs) fun _ => Effect.pure _

theorem nearestBeeLoop_changes (minRange maxRange : ℤ) (fuel : ℕ) :
    ∀ ind place, Effect Changes (nearestBeeLoop L minRange maxRange fuel ind place) := by
  induction fuel with
  | zero =>
    intro ind place
    exact Effect.throw _
  | succ fuel ih =>
    intro ind place
    unfold nearestBeeLoop
    split
    · exact Effect.pure _
    · exact Effect.throw _
    · refine Effect.bind Effect.get fun s => ?_
      exact Effect.ite (ih _ _) (Effect.ite (Effect.pure _) (randomOrNone_changes _))

theorem applyEffect_changes (effect : StatusEffect) (b : ℕ) (duration : ℤ) :
    Effect Changes (applyEffect effect b duration) := by
  refine Effect.modify fun s => ?_
  split
  · exact .refl
  · exact .refl
  · rename_i hhornet hboss
    exact .single (.effect s effect b duration ⟨hhornet, hboss⟩)

theorem throwAt_changes (a : ℕ) (target : Option ℕ) : Effect Changes (throwAt a target) := by
  unfold throwAt
  refine Effect.bind Effect.get fun s => ?_
  split
  · exact Effect.pure _
  · dsimp only
    split
    · exact applyEffect_changes _ _ _
    · exact applyEffect_changes _ _ _
    · exact beeReduceArmor_changes allowsMoves_changes _ _

theorem throwerAction_changes (fuel a : ℕ) : Effect Changes (throwerAction L fuel a) := by
  unfold throwerAction nearestBee
  refine Effect.bind Effect.get fun s => ?_
  refine Effect.bind ?_ fun target => throwAt_changes a target
  exact Effect.bind Effect.get fun s => nearestBeeLoop_changes _ _ _ _ _

theorem doubleDamage_changes (q a : ℕ) : Effect Changes (doubleDamage q a) := by
  refine Effect.modify fun s => ?_
  split
  · exact .refl
  · have hdouble : Change s (s.modifyAnt a fun x => { x with damage := x.damage * 2 }) :=
      .account s a _ fun x => ⟨rfl, rfl, rfl, rfl, rfl⟩
    refine .tail (.single hdouble) (.account _ q (fun x => { x with doubled := a :: x.doubled }) ?_)
    intro x
    exact ⟨rfl, rfl, rfl, rfl, rfl⟩

theorem doubleLoop_changes (q fuel : ℕ) :
    ∀ place, Effect Changes (doubleLoop L q fuel place) := by
  induction fuel with
  | zero =>
    intro place
    exact Effect.throw _
  | succ fuel ih =>
    intro place
    cases place with
    | none => exact Effect.pure _
    | some p =>
      unfold doubleLoop
      refine Effect.bind Effect.get fun s => ?_
      cases s.antAt p with
      | none => exact ih _
      | some a =>
        refine Effect.bind (doubleDamage_changes q a) fun _ => ?_
        refine Effect.bind Effect.get fun s' => ?_
        cases (s'.ants a).contained with
        | none => exact ih _
        | some x =>
          exact Effect.ite (Effect.bind (doubleDamage_changes q x) fun _ => ih _) (ih _)

theorem queenAction_changes (fuel q : ℕ) : Effect Changes (queenAction L fuel q) := by
  unfold queenAction
  refine Effect.bind Effect.get fun s => ?_
  refine Effect.ite (antReduceArmor_changes allowsMoves_changes _ _) ?_
  refine Effect.bind (throwerAction_changes fuel q) fun _ => ?_
  refine Effect.bind Effect.get fun s' => ?_
  split
  · exact Effect.throw _
  · exact doubleLoop_changes _ _ _

theorem hungryAction_changes (a : ℕ) : Effect Changes (hungryAction a) := by
  unfold hungryAction
  refine Effect.bind Effect.get fun s => ?_
  refine Effect.ite (modify_changes fun s => .account s a _ fun x => ⟨rfl, rfl, rfl, rfl, rfl⟩) ?_
  split
  · exact Effect.throw _
  · refine Effect.bind Effect.get fun s' => ?_
    refine Effect.bind (randomOrNone_changes _) fun target => ?_
    split
    · exact Effect.pure _
    · refine Effect.bind Effect.get fun s'' => ?_
      refine Effect.bind (beeReduceArmor_changes allowsMoves_changes _ _) fun _ => ?_
      exact modify_changes fun s => .account s a _ fun x => ⟨rfl, rfl, rfl, rfl, rfl⟩

theorem antAction_changes (loopFuel fuel : ℕ) :
    ∀ a, Effect Changes (antAction L loopFuel fuel a) := by
  induction fuel with
  | zero =>
    intro a
    exact Effect.throw _
  | succ fuel ih =>
    intro a
    unfold antAction
    refine Effect.bind Effect.get fun s => ?_
    have hthrower := @throwerAction_changes L loopFuel a
    dsimp only
    generalize (s.ants a).kind = kind
    cases kind with
    | harvester =>
      exact modify_changes fun s => .counters s s.time _ s.numBees s.activeBees s.choices
    | wall | fire => exact Effect.pure _
    | thrower | scuba | long | short | slow | stun => exact hthrower
    | ninja => exact damageBeesAt_changes allowsMoves_changes a _
    | hungry => exact hungryAction_changes a
    | queen => exact queenAction_changes loopFuel a
    | bodyguard =>
      cases (s.ants a).contained with
      | none => exact Effect.pure _
      | some x => exact ih x
    | tank =>
      refine Effect.bind (damageBeesAt_changes allowsMoves_changes a _) fun _ => ?_
      refine Effect.bind Effect.get fun s' => ?_
      cases (s'.ants a).contained with
      | none => exact Effect.pure _
      | some x => exact ih x

theorem antsAct_changes (fuel : ℕ) (ants : List ℕ) : Effect Changes (antsAct L fuel ants) := by
  induction ants with
  | nil => exact Effect.pure _
  | cons a ants ih =>
    unfold antsAct
    refine Effect.bind Effect.get fun s => ?_
    exact Effect.ite (Effect.bind (antAction_changes _ _ a) fun _ => ih) ih

/-! ## Moves and commands -/

section AddInsect

variable {s s' : Colony} {p : PlaceId} {i : Insect}

theorem addInsect_ok (hp : p ≠ .queenPlace) (hadd : s.placeAddInsect p i = .ok s') :
    addInsect L p i s = (if L.water p then soak i else return ()) s' := by
  have hact : act (·.placeAddInsect p i) s = .ok () s' := by simp only [act, hadd]
  cases p with
  | queenPlace => exact absurd rfl hp
  | hive => exact eval_bind_ok hact _
  | tunnel k => exact eval_bind_ok hact _

theorem addInsect_error {e : Exn} (hp : p ≠ .queenPlace)
    (hadd : s.placeAddInsect p i = .error e) : addInsect L p i s = .error e s := by
  have hact : act (·.placeAddInsect p i) s = .error e s := by simp only [act, hadd]
  cases p with
  | queenPlace => exact absurd rfl hp
  | hive => exact eval_bind_error hact _
  | tunnel k => exact eval_bind_error hact _

theorem soak_changes (hR : AllowsMoves R) (i : Insect) : Effect R (soak i) := by
  cases i with
  | bee b => exact Effect.pure _
  | ant a =>
    exact Effect.bind Effect.get fun s =>
      Effect.ite (antReduceArmor_changes hR a _) (Effect.pure _)

/-- What follows when an insect is added, if adding it is a change. -/
theorem addInsect_changes (hR : AllowsMoves R) {s₀ : Colony} (h₀ : R s₀ s)
    (h : ∀ s', s.placeAddInsect p i = .ok s' → R s₀ s') :
    R s₀ (finalState (addInsect L p i s)) := by
  by_cases hp : p = .queenPlace
  · subst hp
    cases i <;> exact h₀
  · cases hadd : s.placeAddInsect p i with
    | error e =>
      rw [addInsect_error hp hadd]
      exact h₀
    | ok s' =>
      rw [addInsect_ok hp hadd]
      have hsoak : Effect R (if L.water p then soak i else return ()) :=
        Effect.ite (soak_changes hR i) (Effect.pure _)
      exact trans_of R (h s' hadd) (hsoak s')

end AddInsect

theorem removeInsect_bee_place {s s' : Colony} {p : PlaceId} {b : ℕ}
    (h : s.removeInsect p (.bee b) = .ok s') : (s'.bees b).place = none := by
  simp only [Colony.removeInsect] at h
  split at h
  · cases h
    simp [Colony.setPlace, Colony.modifyBee]
  · cases h

theorem removeFromPlace_of_none {i : Insect} {s : Colony} (h : s.place i = none) :
    removeFromPlace i s = .error .attributeError s := by
  have hget : (get : GameM Colony) s = .ok s s := rfl
  unfold removeFromPlace
  rw [eval_bind_ok hget, h]
  rfl

theorem removeFromPlace_of_some {i : Insect} {p : PlaceId} {s : Colony} (h : s.place i = some p) :
    removeFromPlace i s = act (·.removeInsect p i) s := by
  have hget : (get : GameM Colony) s = .ok s s := rfl
  unfold removeFromPlace
  rw [eval_bind_ok hget, h]

theorem moveTo_changes (hR : AllowsMoves R) (b : ℕ) (p : PlaceId) :
    Effect R (moveTo L b p) := by
  intro s
  have hmove : moveTo L b p s = (removeFromPlace (.bee b) >>= fun _ => addInsect L p (.bee b)) s :=
    rfl
  rw [hmove]
  cases hplace : s.place (.bee b) with
  | none =>
    rw [eval_bind_error (removeFromPlace_of_none hplace)]
    exact Std.Refl.refl s
  | some q =>
    have hremove := removeFromPlace_of_some hplace
    rw [act] at hremove
    cases hgone : s.removeInsect q (.bee b) with
    | error e =>
      rw [hgone] at hremove
      rw [eval_bind_error hremove]
      exact Std.Refl.refl s
    | ok s' =>
      rw [hgone] at hremove
      rw [eval_bind_ok hremove]
      refine trans_of R (hR.remove _ _ _ _ hgone) ?_
      refine addInsect_changes hR (Std.Refl.refl s') fun s'' hadd => ?_
      exact hR.addBee _ _ _ _ (removeInsect_bee_place hgone) hadd

/-- A new ant is made, and added to a place unless that fails. -/
theorem deployAnt_changes (antTypes : List AntKind) (placeName antTypeName : String) :
    Effect Changes (deployAnt L antTypes placeName antTypeName) := by
  unfold deployAnt
  cases antTypeNamed antTypes antTypeName with
  | none => exact Effect.throw _
  | some kind =>
    refine Effect.bind Effect.get fun s₀ => Effect.ite (Effect.pure _) ?_
    intro s
    have hconstruct : construct kind s = .ok s.antCount (s.construct kind) := rfl
    rw [eval_bind_ok hconstruct]
    cases L.lookup placeName with
    | none => exact .single (.construct s kind)
    | some p =>
      refine Effect.bind_from ?_ fun _ => modify_changes fun s => ?_
      · refine addInsect_changes allowsMoves_changes (.single (.construct s kind)) fun s' hadd => ?_
        exact .single (.deploy kind hadd)
      · exact .counters s s.time _ s.numBees s.activeBees s.choices

theorem removeAnt_changes (placeName : String) : Effect Changes (removeAnt L placeName) := by
  unfold removeAnt
  split
  · exact Effect.throw _
  · refine Effect.bind Effect.get fun s => ?_
    split
    · exact Effect.pure _
    · exact act_changes fun s s' h => .single (.remove h)

theorem runCommand_changes (antTypes : List AntKind) (command : Command) :
    Effect Changes (runCommand L antTypes command) := by
  cases command with
  | deploy placeName antTypeName => exact deployAnt_changes antTypes placeName antTypeName
  | remove placeName => exact removeAnt_changes placeName

theorem runStrategy_changes (antTypes : List AntKind) (commands : List (Command × Bool)) :
    Effect Changes (runStrategy L antTypes commands) := by
  induction commands with
  | nil => exact Effect.pure _
  | cons x commands ih =>
    obtain ⟨command, handled⟩ := x
    intro s
    have hrun := @runCommand_changes L antTypes command s
    unfold runStrategy
    cases hresult : runCommand L antTypes command s with
    | ok u s' =>
      rw [hresult] at hrun
      exact Relation.ReflTransGen.trans hrun (ih s')
    | error e s' =>
      rw [hresult] at hrun
      cases handled with
      | true => exact Relation.ReflTransGen.trans hrun (ih s')
      | false => exact hrun

theorem launch_changes (exits : List PlaceId) (bees : List ℕ) :
    Effect Changes (launch L exits bees) := by
  induction bees with
  | nil => exact Effect.pure _
  | cons b bees ih =>
    unfold launch
    refine Effect.bind (randomChoice_changes _) fun p => ?_
    refine Effect.bind (moveTo_changes allowsMoves_changes b p) fun _ => ?_
    refine Effect.bind (modify_changes fun s => ?_) fun _ => ih
    exact .counters s s.time s.food s.numBees _ s.choices

theorem hiveStrategy_changes (plan : AssaultPlan) : Effect Changes (hiveStrategy L plan) := by
  unfold hiveStrategy
  exact Effect.bind Effect.get fun s => launch_changes _ _

theorem beeBaseAction_changes (hR : AllowsMoves R) (b : ℕ) : Effect R (beeBaseAction L b) := by
  unfold beeBaseAction
  refine Effect.bind Effect.get fun s => ?_
  dsimp only
  split
  · exact Effect.ite (Effect.pure _) (Effect.throw _)
  · split
    · exact antReduceArmor_changes hR _ _
    · refine Effect.ite ?_ (Effect.pure _)
      split
      · exact Effect.pure _
      · exact moveTo_changes hR b _

/-! ## Turns -/

theorem countOut_changes (b : ℕ) : Effect Changes (countOut b) := by
  refine Effect.bind (modify_changes fun s => ?_) fun _ => ?_
  · exact .counters s s.time s.food _ s.activeBees s.choices
  · refine Effect.bind Effect.get fun s => ?_
    have hremove : Effect Changes
        (modify fun s => { s with activeBees := s.activeBees.erase b } : GameM Unit) :=
      modify_changes fun s => .counters s s.time s.food s.numBees _ s.choices
    exact Effect.ite (Effect.bind (Effect.throw _) fun _ => hremove) hremove

theorem hornetAct_changes (b : ℕ) : Effect Changes (hornetAct L b) := by
  refine Effect.bind Effect.get fun s => ?_
  exact Effect.ite (beeBaseAction_changes allowsMoves_changes b) (Effect.pure _)

theorem changedAction_changes (hR : AllowsMoves R) (b : ℕ) (effect : StatusEffect) :
    Effect R (changedAction L b effect) := by
  cases effect with
  | slow =>
    refine Effect.bind Effect.get fun s => ?_
    exact Effect.ite (beeBaseAction_changes hR b) (Effect.pure _)
  | stun => exact Effect.pure _

/-- Bees change the colony and set their own actions. -/
theorem beeAction_effect (hR : ∀ s s', Changes s s' → R s s') {b : ℕ}
    (hset : ∀ (s : Colony) (action : Action),
      R s (s.modifyBee b fun x => { x with action := action })) :
    Effect R (beeAction L b) := by
  have hchanges : ∀ m : GameM Unit, Effect Changes m → Effect R m := fun m hm s => hR _ _ (hm s)
  have hbase := hchanges _ (@beeBaseAction_changes L Changes _ _ allowsMoves_changes b)
  have hhornet := hchanges _ (@hornetAct_changes L b)
  refine Effect.bind Effect.get fun s => ?_
  dsimp only
  split
  · exact hbase
  · exact Effect.bind hhornet fun _ => hhornet
  · cases (s.bees b).action with
    | default => exact hbase
    | durationEffect effect duration prevAction =>
      have hchanged :=
        hchanges _ (@changedAction_changes L Changes _ _ allowsMoves_changes b effect)
      exact Effect.bind hchanged fun _ => Effect.modify fun s' => hset s' _

/-- Whatever holds of the changes of the colony and of the actions of bees holds of a turn. -/
theorem moves_effect (hR : ∀ s s', Changes s s' → R s s') (hbees : ∀ b, Effect R (beeAction L b))
    (antTypes : List AntKind) (plan : AssaultPlan) (fuel : ℕ) (commands : List (Command × Bool)) :
    Effect R (moves L antTypes plan fuel commands) := by
  have hchanges : ∀ m : GameM Unit, Effect Changes m → Effect R m := fun m hm s => hR _ _ (hm s)
  have hbeesAct : ∀ bees, Effect R (beesAct L bees) := by
    intro bees
    induction bees with
    | nil => exact Effect.pure _
    | cons b bees ih =>
      have hrest : Effect R (do
          if ((← get).bees b).armor ≤ 0 then countOut b
          beesAct L bees) := by
        refine Effect.bind Effect.get fun s => ?_
        exact Effect.ite (Effect.bind (hchanges _ (countOut_changes b)) fun _ => ih) ih
      refine Effect.bind Effect.get fun s => ?_
      exact Effect.ite (Effect.bind (hbees b) fun _ => hrest) hrest
  refine Effect.bind (hchanges _ (hiveStrategy_changes plan)) fun _ => ?_
  refine Effect.bind (hchanges _ (runStrategy_changes antTypes commands)) fun _ => ?_
  refine Effect.bind Effect.get fun s => ?_
  refine Effect.bind (hchanges _ (antsAct_changes fuel _)) fun _ => ?_
  exact Effect.bind Effect.get fun s' => hbeesAct _

end Effects

end Courses.Ants
