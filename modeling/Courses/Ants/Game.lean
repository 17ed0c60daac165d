import Courses.Ants.Colony

/-!
# The game

The actions of ants and bees, the commands of a strategy, and one turn of `simulate`. The fuel
of a turn bounds how many places a loop along the exits or entrances passes and how deep
containers nest.
-/
namespace Courses.Ants

/-! ## Random choices -/

/-- `random.choice` -/
def randomChoice {α : Type} (xs : List α) : GameM α := do
  let choice := (← get).choices 0
  match xs[choice % xs.length]? with
  | none => throw .indexError
  | some x =>
    modify fun s => { s with choices := fun n => s.choices (n + 1) }
    return x

def randomOrNone {α : Type} (xs : List α) : GameM (Option α) := do
  if xs.isEmpty then return none else some <$> randomChoice xs

/-! ## Actions of ants -/

/-- The loop of `nearest_bee`, at the place that is `ind` entrances away. -/
def nearestBeeLoop (L : Layout) (minRange maxRange : ℤ) :
    ℕ → ℕ → Option PlaceId → GameM (Option ℕ)
  | 0, _, _ => throw .outOfFuel
  | fuel + 1, ind, throwPlace =>
    match throwPlace with
    | some .hive => return none
    | none => throw .attributeError
    | some p => do
      let bees := (← get).beesAt p
      if (ind : ℤ) < minRange ∨ bees = [] then
        nearestBeeLoop L minRange maxRange fuel (ind + 1) (L.entrance p)
      else if (ind : ℤ) > maxRange then return none
      else randomOrNone bees

/-- `nearest_bee` of an ant that has the given range. -/
def nearestBee (L : Layout) (minRange maxRange : ℤ) (fuel a : ℕ) : GameM (Option ℕ) := do
  nearestBeeLoop L minRange maxRange fuel 0 ((← get).ants a).place

/-- `apply_effect`: hornets and bosses do not let their action be set. -/
def applyEffect (effect : StatusEffect) (b : ℕ) (duration : ℤ) : GameM Unit :=
  modify fun s =>
    match (s.bees b).kind with
    | .hornet | .boss => s
    | _ => s.modifyBee b fun x => { x with action := .durationEffect effect duration x.action }

def throwAt (a : ℕ) (target : Option ℕ) : GameM Unit := do
  let ant := (← get).ants a
  match target with
  | none => return ()
  | some b =>
    match ant.kind with
    | .slow => applyEffect .slow b 3
    | .stun => applyEffect .stun b 1
    | _ => beeReduceArmor b ant.damage

/-- `ThrowerAnt.action` -/
def throwerAction (L : Layout) (fuel a : ℕ) : GameM Unit := do
  let kind := ((← get).ants a).kind
  throwAt a (← nearestBee L kind.minRange kind.maxRange fuel a)

/-- `_double_damage` of the queen `q` -/
def doubleDamage (q a : ℕ) : GameM Unit :=
  modify fun s =>
    if a ∈ (s.ants q).doubled then s
    else (s.modifyAnt a fun x => { x with damage := x.damage * 2 }).modifyAnt q fun x =>
      { x with doubled := a :: x.doubled }

/-- The loop of `QueenAnt.action` over the places in front of the queen. -/
def doubleLoop (L : Layout) (q : ℕ) : ℕ → Option PlaceId → GameM Unit
  | 0, _ => throw .outOfFuel
  | _ + 1, none => return ()
  | fuel + 1, some p => do
    match (← get).antAt p with
    | none => pure ()
    | some a =>
      doubleDamage q a
      let s ← get
      match (s.ants a).contained with
      | some x => if s.container a then doubleDamage q x
      | none => pure ()
    doubleLoop L q fuel (L.exit p)

def queenAction (L : Layout) (fuel q : ℕ) : GameM Unit := do
  let queen := (← get).ants q
  if queen.imposter then antReduceArmor q queen.armor
  else
    throwerAction L fuel q
    match ((← get).ants q).place with
    | none => throw .attributeError
    | some p => doubleLoop L q fuel (L.exit p)

/-- `time_to_digest` -/
def timeToDigest : ℕ := 3

def hungryAction (a : ℕ) : GameM Unit := do
  let ant := (← get).ants a
  if 0 < ant.digesting then
    modify (·.modifyAnt a fun x => { x with digesting := x.digesting - 1 })
  else
    match ant.place with
    | none => throw .attributeError
    | some p =>
      match ← randomOrNone ((← get).beesAt p) with
      | none => return ()
      | some b =>
        beeReduceArmor b ((← get).bees b).armor
        modify (·.modifyAnt a fun x => { x with digesting := timeToDigest })

/-- `ant.action(colony)`: a container has the ant that it contains act. -/
def antAction (L : Layout) (loopFuel : ℕ) : ℕ → ℕ → GameM Unit
  | 0, _ => throw .outOfFuel
  | fuel + 1, a => do
    let ant := (← get).ants a
    match ant.kind with
    | .harvester => modify fun s => { s with food := s.food + 1 }
    | .wall | .fire => return ()
    | .thrower | .scuba | .long | .short | .slow | .stun => throwerAction L loopFuel a
    | .ninja => damageBeesAt a ant.place
    | .hungry => hungryAction a
    | .queen => queenAction L loopFuel a
    | .bodyguard =>
      match ant.contained with
      | none => return ()
      | some x => antAction L loopFuel fuel x
    | .tank =>
      damageBeesAt a ant.place
      match ((← get).ants a).contained with
      | none => return ()
      | some x => antAction L loopFuel fuel x

/-! ## Actions of bees -/

def moveTo (L : Layout) (b : ℕ) (p : PlaceId) : GameM Unit := do
  removeFromPlace (.bee b)
  addInsect L p (.bee b)

/-- The ant that blocks the bee in a place, if one does: a ninja bee is never blocked. -/
def blocker (s : Colony) (b : ℕ) (p : PlaceId) : Option ℕ :=
  if (s.bees b).kind = .ninjaBee then none
  else (s.antAt p).filter fun a => (s.ants a).kind.blocksPath

/-- `Bee.action` -/
def beeBaseAction (L : Layout) (b : ℕ) : GameM Unit := do
  let s ← get
  let bee := s.bees b
  match bee.place with
  | none => if bee.kind = .ninjaBee ∧ bee.armor ≤ 0 then return () else throw .attributeError
  | some p =>
    match blocker s b p with
    | some a => antReduceArmor a bee.kind.damage
    | none =>
      if 0 < bee.armor then
        match L.exit p with
        | none => return ()
        | some p' => moveTo L b p'

/-- One of the two actions of a hornet. -/
def hornetAct (L : Layout) (b : ℕ) : GameM Unit := do
  if 0 < ((← get).bees b).armor then beeBaseAction L b

/-- `make_slow(action)` and `make_stun(action)`: neither of the new actions calls `action`. -/
def changedAction (L : Layout) (b : ℕ) : StatusEffect → GameM Unit
  | .slow => do
    if (← get).time % 2 = 0 then beeBaseAction L b
  | .stun => return ()

/-- A call of the action of a bee that is not immune. -/
def callAction (L : Layout) (b : ℕ) : Action → GameM Unit
  | .default => beeBaseAction L b
  | .durationEffect effect duration prevAction => do
    changedAction L b effect
    modify (·.modifyBee b fun x => { x with
      action :=
        if duration - 1 = 0 then prevAction else .durationEffect effect (duration - 1) prevAction })

/-- `bee.action(colony)` -/
def beeAction (L : Layout) (b : ℕ) : GameM Unit := do
  let bee := (← get).bees b
  match bee.kind with
  | .boss => beeBaseAction L b
  | .hornet =>
    hornetAct L b
    hornetAct L b
  | _ => callAction L b bee.action

/-! ## Commands of a strategy -/

/-- The colony with a new ant. -/
def Colony.construct (s : Colony) (kind : AntKind) : Colony :=
  let ant : Ant := ⟨kind, kind.armor, kind.damage, none, none, 0,
    decide (kind = AntKind.queen) && s.queenCount != 0, []⟩
  { s with
    ants := Function.update s.ants s.antCount ant
    antCount := s.antCount + 1
    queenCount := if kind = AntKind.queen then s.queenCount + 1 else s.queenCount }

/-- The constructor of a class of ants. -/
def construct (kind : AntKind) : GameM ℕ := do
  let s ← get
  set (s.construct kind)
  return s.antCount

/-- `self.ant_types[ant_type_name]` -/
def antTypeNamed (antTypes : List AntKind) (antTypeName : String) : Option AntKind :=
  antTypes.find? (·.name = antTypeName)

def deployAnt (L : Layout) (antTypes : List AntKind) (placeName antTypeName : String) :
    GameM Unit := do
  match antTypeNamed antTypes antTypeName with
  | none => throw .keyError
  | some constructor =>
    if (← get).food < constructor.foodCost then return ()
    else
      let ant ← construct constructor
      match L.lookup placeName with
      | none => throw .keyError
      | some p =>
        addInsect L p (.ant ant)
        modify fun s => { s with food := s.food - constructor.foodCost }

def removeAnt (L : Layout) (placeName : String) : GameM Unit := do
  match L.lookup placeName with
  | none => throw .keyError
  | some p =>
    match (← get).antAt p with
    | none => return ()
    | some a => act (·.removeInsect p (.ant a))

inductive Command
  | deploy (placeName antTypeName : String)
  | remove (placeName : String)

def runCommand (L : Layout) (antTypes : List AntKind) : Command → GameM Unit
  | .deploy placeName antTypeName => deployAnt L antTypes placeName antTypeName
  | .remove placeName => removeAnt L placeName

/-- The commands that a strategy gives in one turn, each with whether the strategy handles the
exception that the command may raise. -/
def runStrategy (L : Layout) (antTypes : List AntKind) : List (Command × Bool) → GameM Unit
  | [] => return ()
  | (command, handled) :: commands => fun s =>
    match runCommand L antTypes command s with
    | .ok _ s' => runStrategy L antTypes commands s'
    | .error e s' => if handled then runStrategy L antTypes commands s' else .error e s'

/-! ## A turn -/

/-- The loop of `Hive.strategy`. -/
def launch (L : Layout) (exits : List PlaceId) : List ℕ → GameM Unit
  | [] => return ()
  | b :: bees => do
    moveTo L b (← randomChoice exits)
    modify fun s => { s with activeBees := s.activeBees ++ [b] }
    launch L exits bees

/-- `Hive.strategy` -/
def hiveStrategy (L : Layout) (plan : AssaultPlan) : GameM Unit := do
  let exits := (L.places.map Prod.snd).filter fun p => L.entrance p = some .hive
  launch L exits (plan.get (← get).time)

/-- `colony.ants` -/
def Colony.colonyAnts (s : Colony) (L : Layout) : List ℕ :=
  (L.places.map Prod.snd).filterMap s.antAt

/-- Ants take actions. -/
def antsAct (L : Layout) (fuel : ℕ) : List ℕ → GameM Unit
  | [] => return ()
  | a :: ants => do
    if 0 < ((← get).ants a).armor then antAction L fuel fuel a
    antsAct L fuel ants

/-- `num_bees -= 1; self.active_bees.remove(bee)` -/
def countOut (b : ℕ) : GameM Unit := do
  modify fun s => { s with numBees := s.numBees - 1 }
  if b ∉ (← get).activeBees then throw .valueError
  modify fun s => { s with activeBees := s.activeBees.erase b }

/-- Bees take actions. -/
def beesAct (L : Layout) : List ℕ → GameM Unit
  | [] => return ()
  | b :: bees => do
    if 0 < ((← get).bees b).armor then beeAction L b
    if ((← get).bees b).armor ≤ 0 then countOut b
    beesAct L bees

/-- What a turn does before `simulate` looks at the number of bees. -/
def moves (L : Layout) (antTypes : List AntKind) (plan : AssaultPlan) (fuel : ℕ)
    (commands : List (Command × Bool)) : GameM Unit := do
  hiveStrategy L plan
  runStrategy L antTypes commands
  antsAct L fuel ((← get).colonyAnts L)
  beesAct L (← get).activeBees

/-- How a turn may end instead of going over to the next one. -/
inductive Ending
  | antsWin
  | raised (e : Exn)
  deriving DecidableEq

/-- One turn of `simulate`. -/
def turn (L : Layout) (antTypes : List AntKind) (plan : AssaultPlan) (fuel : ℕ)
    (commands : List (Command × Bool)) : EStateM Ending Colony Unit := fun s =>
  match moves L antTypes plan fuel commands s with
  | .error e s' => .error (.raised e) s'
  | .ok _ s' =>
    if s'.numBees = 0 then .error .antsWin s' else .ok () { s' with time := s'.time + 1 }

/-- The colony as `simulate` finds it: all bees are in the hive. -/
def initialColony (plan : AssaultPlan) (food : ℤ) (queenCount : ℕ) (choices : ℕ → ℕ) : Colony where
  ants _ := ⟨.harvester, 0, 0, none, none, 0, false, []⟩
  antCount := 0
  bees b := ⟨plan.kind b, plan.armor b, if b ∈ plan.allBees then some .hive else none, .default⟩
  antAt _ := none
  beesAt p := if p = .hive then plan.allBees else []
  time := 0
  food := food
  activeBees := []
  queenCount := queenCount
  choices := choices
  numBees := plan.allBees.length

end Courses.Ants
