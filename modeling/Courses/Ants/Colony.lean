import Courses.Ants.Layouts
import Courses.Lib.Effects
import Mathlib.Data.Rat.Defs

/-!
# The colony

`ants.py`: the classes of insects with their attributes, the colony with all insects made so far,
and what adds an insect to a place, takes it away and reduces its armor. Insects are told apart by
numbers, ants and bees each for themselves. Armor and damage are exact rationals.
-/
namespace Courses.Ants

/-! ## Classes of insects -/

/-- The implemented classes of ants. -/
inductive AntKind
  | harvester
  | wall
  | thrower
  | scuba
  | fire
  | long
  | short
  | ninja
  | hungry
  | bodyguard
  | tank
  | queen
  | slow
  | stun
  deriving DecidableEq

namespace AntKind

/-- `ant_types()`, in another order. -/
def all : List AntKind :=
  [.harvester, .wall, .thrower, .scuba, .fire, .long, .short, .ninja, .hungry, .bodyguard, .tank,
    .queen, .slow, .stun]

def name : AntKind → String
  | harvester => "Harvester"
  | wall => "Wall"
  | thrower => "Thrower"
  | scuba => "Scuba"
  | fire => "Fire"
  | long => "Long"
  | short => "Short"
  | ninja => "Ninja"
  | hungry => "Hungry"
  | bodyguard => "Bodyguard"
  | tank => "Tank"
  | queen => "Queen"
  | slow => "Slow"
  | stun => "Stun"

def foodCost : AntKind → ℤ
  | harvester => 2
  | wall => 4
  | thrower => 4
  | scuba => 5
  | fire => 6
  | long => 2
  | short => 2
  | ninja => 6
  | hungry => 4
  | bodyguard => 4
  | tank => 6
  | queen => 6
  | slow => 4
  | stun => 6

/-- The armor that a new ant has. -/
def armor : AntKind → ℚ
  | wall => 4
  | bodyguard => 2
  | tank => 2
  | _ => 1

def damage : AntKind → ℚ
  | fire => 3
  | thrower | scuba | long | short | ninja | tank | queen | slow | stun => 1
  | harvester | wall | hungry | bodyguard => 0

def watersafe : AntKind → Bool
  | scuba | queen => true
  | _ => false

def blocksPath : AntKind → Bool
  | ninja => false
  | _ => true

def container : AntKind → Bool
  | bodyguard | tank => true
  | _ => false

def minRange : AntKind → ℤ
  | long => 5
  | _ => 0

/-- The greatest range, `sys.maxsize` where the class has no other. -/
def maxRange : AntKind → ℤ
  | short => 3
  | _ => 2 ^ 63 - 1

theorem armor_pos (kind : AntKind) : 0 < kind.armor := by
  cases kind <;> decide

end AntKind

inductive BeeKind
  | bee
  | wasp
  | hornet
  | ninjaBee
  | boss
  deriving DecidableEq

def BeeKind.damage : BeeKind → ℚ
  | bee => 1
  | wasp => 2
  | hornet => 1 / 4
  | ninjaBee => 1
  | boss => 2

/-- What a thrower may do to the action of a bee. -/
inductive StatusEffect
  | slow
  | stun
  deriving DecidableEq

/-- The action of a bee: the method of its class, or `duration_effect`, with the effect, the number
of turns that are left and the action that it was applied to. -/
inductive Action
  | default
  | durationEffect (effect : StatusEffect) (duration : ℤ) (prevAction : Action)
  deriving DecidableEq

/-- Waves of bees by their times. Each wave is made of new bees. -/
structure AssaultPlan where
  waves : List (ℤ × List ℕ)
  kind : ℕ → BeeKind
  armor : ℕ → ℚ
  nodup_times : (waves.map Prod.fst).Nodup
  nodup : (waves.flatMap Prod.snd).Nodup

namespace AssaultPlan

variable (plan : AssaultPlan)

def allBees : List ℕ := plan.waves.flatMap Prod.snd

/-- `assault_plan.get(time, [])` -/
def get (time : ℤ) : List ℕ := (plan.waves.lookup time).getD []

end AssaultPlan

/-! ## The state of a game -/

/-- An ant. Only containers ever contain one, only a hungry ant digests, and only queens are
impostors and have doubled the damage of others. -/
structure Ant where
  kind : AntKind
  armor : ℚ
  damage : ℚ
  place : Option PlaceId
  contained : Option ℕ
  digesting : ℕ
  imposter : Bool
  doubled : List ℕ

structure Bee where
  kind : BeeKind
  armor : ℚ
  place : Option PlaceId
  action : Action

inductive Insect
  | ant (a : ℕ)
  | bee (b : ℕ)
  deriving DecidableEq

/-- The colony, with all insects, what each place holds, the number of queens made so far and the
random choices; `numBees` is the local variable of `simulate`. -/
structure Colony where
  ants : ℕ → Ant
  antCount : ℕ
  bees : ℕ → Bee
  antAt : PlaceId → Option ℕ
  beesAt : PlaceId → List ℕ
  time : ℤ
  food : ℤ
  activeBees : List ℕ
  queenCount : ℕ
  choices : ℕ → ℕ
  numBees : ℤ

/-- Exceptions. Running out of fuel is not one of the source: it ends a loop that goes on. -/
inductive Exn
  | beesWin
  | assertion
  | attributeError
  | keyError
  | indexError
  | valueError
  | zeroDivision
  | outOfFuel
  deriving DecidableEq

abbrev GameM := EStateM Exn Colony

namespace Colony

variable (s : Colony)

def modifyAnt (a : ℕ) (f : Ant → Ant) : Colony :=
  { s with ants := Function.update s.ants a (f (s.ants a)) }

def modifyBee (b : ℕ) (f : Bee → Bee) : Colony :=
  { s with bees := Function.update s.bees b (f (s.bees b)) }

def setAntAt (p : PlaceId) (a : Option ℕ) : Colony :=
  { s with antAt := Function.update s.antAt p a }

def setBeesAt (p : PlaceId) (bees : List ℕ) : Colony :=
  { s with beesAt := Function.update s.beesAt p bees }

def place : Insect → Option PlaceId
  | .ant a => (s.ants a).place
  | .bee b => (s.bees b).place

def armor : Insect → ℚ
  | .ant a => (s.ants a).armor
  | .bee b => (s.bees b).armor

def setPlace (i : Insect) (p : Option PlaceId) : Colony :=
  match i with
  | .ant a => s.modifyAnt a fun x => { x with place := p }
  | .bee b => s.modifyBee b fun x => { x with place := p }

def setArmor (i : Insect) (armor : ℚ) : Colony :=
  match i with
  | .ant a => s.modifyAnt a fun x => { x with armor := armor }
  | .bee b => s.modifyBee b fun x => { x with armor := armor }

/-- `ant.container` -/
def container (a : ℕ) : Bool := (s.ants a).kind.container

/-- `can_contain` -/
def canContain (a other : ℕ) : Bool :=
  s.container a && (s.ants a).contained.isNone && !s.container other

/-- A queen that is no impostor. -/
def trueQueen (a : ℕ) : Bool := (s.ants a).kind = .queen && !(s.ants a).imposter

/-! ## Adding and removing insects -/

/-- `Place.add_insect` -/
def placeAddInsect (p : PlaceId) (i : Insect) : Except Exn Colony :=
  match i with
  | .bee b => .ok ((s.setBeesAt p (s.beesAt p ++ [b])).setPlace i (some p))
  | .ant a =>
    match s.antAt p with
    | none => .ok ((s.setAntAt p (some a)).setPlace i (some p))
    | some b =>
      if s.canContain b a then
        .ok ((s.modifyAnt b fun x => { x with contained := some a }).setPlace i (some p))
      else if s.canContain a b then
        .ok (((s.modifyAnt a fun x => { x with contained := some b }).setAntAt p
          (some a)).setPlace i (some p))
      else .error .assertion

/-- `Place.remove_insect` -/
def removeInsect (p : PlaceId) (i : Insect) : Except Exn Colony :=
  match i with
  | .bee b =>
    if b ∈ s.beesAt p then .ok ((s.setBeesAt p ((s.beesAt p).erase b)).setPlace i none)
    else .error .valueError
  | .ant a =>
    match s.antAt p with
    | none => .error .assertion
    | some c =>
      if c = a then
        if s.container c then .ok ((s.setAntAt p (s.ants c).contained).setPlace i none)
        else if s.trueQueen c then .ok s
        else .ok ((s.setAntAt p none).setPlace i none)
      else if s.container c ∧ (s.ants c).contained = some a then
        if s.trueQueen a then .ok s
        else .ok ((s.modifyAnt c fun x => { x with contained := none }).setPlace i none)
      else .error .assertion

end Colony

/-- What a method does to the colony, or the exception that it raises before it does anything. -/
def act (f : Colony → Except Exn Colony) : GameM Unit := fun s =>
  match f s with
  | .ok s' => .ok () s'
  | .error e => .error e s

/-- `self.place.remove_insect(self)` -/
def removeFromPlace (i : Insect) : GameM Unit := do
  match (← get).place i with
  | none => throw .attributeError
  | some p => act (·.removeInsect p i)

/-! ## Reducing armor -/

/-- `Insect.reduce_armor` -/
def insectReduceArmor (i : Insect) (amount : ℚ) : GameM Unit := do
  let armor := (← get).armor i - amount
  modify (·.setArmor i armor)
  if armor ≤ 0 then removeFromPlace i

/-- `damage_cap` -/
def damageCap : ℚ := 8

/-- `bee.reduce_armor(amount)` -/
def beeReduceArmor (b : ℕ) (amount : ℚ) : GameM Unit := do
  match ((← get).bees b).kind with
  | .boss =>
    if damageCap + amount = 0 then throw .zeroDivision
    insectReduceArmor (.bee b) (amount * damageCap / (damageCap + amount))
  | _ => insectReduceArmor (.bee b) amount

/-- `for bee in bees: bee.reduce_armor(self.damage)` -/
def damageBees (a : ℕ) : List ℕ → GameM Unit
  | [] => return ()
  | b :: bees => do
    beeReduceArmor b ((← get).ants a).damage
    damageBees a bees

/-- `for bee in place.bees[:]: bee.reduce_armor(self.damage)` -/
def damageBeesAt (a : ℕ) (place : Option PlaceId) : GameM Unit := do
  match place with
  | none => throw .attributeError
  | some p => damageBees a ((← get).beesAt p)

/-- `ant.reduce_armor(amount)` -/
def antReduceArmor (a : ℕ) (amount : ℚ) : GameM Unit := do
  let ant := (← get).ants a
  match ant.kind with
  | .fire =>
    insectReduceArmor (.ant a) amount
    if ((← get).ants a).armor ≤ 0 then damageBeesAt a ant.place
  | .queen =>
    let armor := ant.armor - amount
    modify (·.setArmor (.ant a) armor)
    if !ant.imposter ∧ armor ≤ 0 then throw .beesWin
    removeFromPlace (.ant a)
  | _ => insectReduceArmor (.ant a) amount

/-- What `Water.add_insect` does once the insect is added. -/
def soak : Insect → GameM Unit
  | .bee _ => return ()
  | .ant a => do
    let ant := (← get).ants a
    if !ant.kind.watersafe then antReduceArmor a ant.armor

/-- `add_insect` of a place, of water or of the place of the queen. -/
def addInsect (L : Layout) (p : PlaceId) (i : Insect) : GameM Unit := do
  match p with
  | .queenPlace =>
    match i with
    | .ant _ => throw .assertion
    | .bee _ => throw .beesWin
  | _ =>
    act (·.placeAddInsect p i)
    if L.water p then soak i

end Courses.Ants
