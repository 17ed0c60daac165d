import Mathlib.Logic.Function.Basic
import Mathlib.Tactic

/-!
# Layouts of the colony

`Place`, `AntColony.configure`, `wet_layout` and `dry_layout` of `ants.py`: the places of a colony
with their names and links. A layout makes its places one after the other, and the place made as
the `k`th is known as `tunnel k`.
-/
namespace Courses.Ants

inductive PlaceId
  | hive
  | queenPlace
  | tunnel (k : ℕ)
  deriving DecidableEq

/-- The places of a colony: how many a layout has made, the attributes of each place, the
dictionary `places` and the list `bee_entrances`. -/
structure Layout where
  made : ℕ
  name : PlaceId → String
  exit : PlaceId → Option PlaceId
  entrance : PlaceId → Option PlaceId
  water : PlaceId → Bool
  places : List (String × PlaceId)
  beeEntrances : List PlaceId

namespace Layout

/-- The hive and the place of the queen alone, neither of them registered. -/
def bare : Layout where
  made := 0
  name p := if p = .hive then "Hive" else "AntQueen"
  exit _ := none
  entrance _ := none
  water _ := false
  places := []
  beeEntrances := []

variable (L : Layout)

/-- `Place(name, exit)`, or `Water(name, exit)`: the new place is the entrance of its exit. -/
def newPlace (name : String) (exit : PlaceId) (water : Bool) : Layout :=
  let self := PlaceId.tunnel L.made
  { L with
    made := L.made + 1
    name := Function.update L.name self name
    exit := Function.update L.exit self (some exit)
    entrance := Function.update (Function.update L.entrance self none) exit (some self)
    water := Function.update L.water self water }

/-- `places[name] = place`: a name that has been there keeps its position. -/
def setPlace (name : String) (place : PlaceId) : List (String × PlaceId) :=
  if L.places.any (·.1 = name) then L.places.map fun x => if x.1 = name then (name, place) else x
  else L.places ++ [(name, place)]

/-- `register_place` -/
def registerPlace (place : PlaceId) (isBeeEntrance : Bool) : Layout :=
  let L' := { L with places := L.setPlace (L.name place) place }
  if isBeeEntrance then
    { L' with
      entrance := Function.update L'.entrance place (some .hive)
      beeEntrances := L'.beeEntrances ++ [place] }
  else L'

/-- `configure` -/
def configure (createPlaces : Layout → Layout) : Layout :=
  createPlaces (bare.registerPlace .hive false)

/-- `self.places[place_name]` -/
def lookup (placeName : String) : Option PlaceId := L.places.lookup placeName

/-- The place that is reached by following `d` entrances. -/
def along (p : PlaceId) : ℕ → Option PlaceId
  | 0 => some p
  | d + 1 => (L.entrance p).bind fun q => along q d

end Layout

/-! ## Wet and dry tunnels -/

/-- One step of a tunnel: the place, behind `exit`, with what it is the exit of next. -/
def wetStep (tunnel length : ℕ) (moatFrequency : ℤ) (x : Layout × PlaceId) (step : ℕ) :
    Layout × PlaceId :=
  let (L, exit) := x
  let water := moatFrequency ≠ 0 ∧ (step + 1 : ℤ) % moatFrequency = 0
  let name := (if water then "water_" else "tunnel_") ++ toString tunnel ++ "_" ++ toString step
  ((L.newPlace name exit water).registerPlace (.tunnel L.made) (step + 1 = length),
    .tunnel L.made)

def wetTunnel (length : ℕ) (moatFrequency : ℤ) (L : Layout) (tunnel : ℕ) : Layout :=
  ((List.range length).foldl (wetStep tunnel length moatFrequency) (L, .queenPlace)).1

def wetLayout (tunnels length : ℕ) (moatFrequency : ℤ) (L : Layout) : Layout :=
  (List.range tunnels).foldl (wetTunnel length moatFrequency) L

def dryLayout (tunnels length : ℕ) : Layout → Layout := wetLayout tunnels length 0

/-! ## Links between the places of a tunnel -/

section Links

variable {L : Layout} {tunnel length : ℕ} {moat : ℤ}

/-- What is there when a layout has made `n` places of a tunnel, behind the `m` places of earlier
tunnels: each of these places leads on to the next one, and the last one to the hive. -/
structure PartialTunnel (length m n : ℕ) (L : Layout) : Prop where
  made : L.made = m + n
  inner : ∀ i, i + 1 < n → L.entrance (.tunnel (m + i)) = some (.tunnel (m + (i + 1)))
  last : n = length → ∀ i, i + 1 = n → L.entrance (.tunnel (m + i)) = some .hive

/-- What a step does not change: the entrances of the places of other tunnels. -/
def SameBelow (m : ℕ) (L L' : Layout) : Prop :=
  L'.entrance .hive = L.entrance .hive ∧
    ∀ k < m, L'.entrance (.tunnel k) = L.entrance (.tunnel k)

theorem wetStep_entrance (exit : PlaceId) (step : ℕ) :
    (wetStep tunnel length moat (L, exit) step).1.entrance =
      if step + 1 = length then
        Function.update (Function.update (Function.update L.entrance (.tunnel L.made) none) exit
          (some (.tunnel L.made))) (.tunnel L.made) (some .hive)
      else Function.update (Function.update L.entrance (.tunnel L.made) none) exit
        (some (.tunnel L.made)) := by
  by_cases hlast : step + 1 = length <;>
    simp [wetStep, Layout.registerPlace, Layout.newPlace, hlast]

theorem wetStep_made (exit : PlaceId) (step : ℕ) :
    (wetStep tunnel length moat (L, exit) step).1.made = L.made + 1 := by
  by_cases hlast : step + 1 = length <;>
    simp [wetStep, Layout.registerPlace, Layout.newPlace, hlast]

theorem SameBelow.trans {m : ℕ} {L L' L'' : Layout} (h : SameBelow m L L')
    (h' : SameBelow m L' L'') : SameBelow m L L'' := by
  constructor
  · rw [h'.1, h.1]
  · intro k hk
    rw [h'.2 k hk, h.2 k hk]

/-- The exit of the next place of a tunnel. -/
def tunnelEnd (m n : ℕ) : PlaceId := if n = 0 then .queenPlace else .tunnel (m + (n - 1))

theorem wetStep_begun {m n : ℕ} (h : PartialTunnel length m n L) (hn : n < length) :
    PartialTunnel length m (n + 1) (wetStep tunnel length moat (L, tunnelEnd m n) n).1 ∧
      SameBelow m L (wetStep tunnel length moat (L, tunnelEnd m n) n).1 := by
  have hentrance := @wetStep_entrance L tunnel length moat (tunnelEnd m n) n
  have hmade := h.made
  constructor
  · constructor
    · rw [wetStep_made, hmade, Nat.add_assoc]
    · intro i hi
      rw [hentrance, hmade]
      obtain rfl | hlt : i + 1 = n ∨ i + 1 < n := by omega
      · by_cases hlast : i + 1 + 1 = length <;> simp [hlast, tunnelEnd]
      · have hend : PlaceId.tunnel (m + i) ≠ tunnelEnd m n := by
          simp only [tunnelEnd]
          split
          · simp
          · simp
            omega
        have hne : ¬ i = n := by omega
        by_cases hlast : n + 1 = length <;>
          simp [hlast, hend, hne, h.inner i hlt]
    · intro hlast i hi
      obtain rfl : i = n := by omega
      rw [hentrance, hmade, if_pos hlast]
      simp
  · constructor
    · have hend : PlaceId.hive ≠ tunnelEnd m n := by
        simp only [tunnelEnd]
        split <;> simp
      by_cases hlast : n + 1 = length <;> simp [hentrance, hlast, hend]
    · intro k hk
      have hend : PlaceId.tunnel k ≠ tunnelEnd m n := by
        simp only [tunnelEnd]
        split
        · simp
        · simp
          omega
      have hne : ¬ k = m + n := by omega
      by_cases hlast : n + 1 = length <;>
        simp [hentrance, hmade, hlast, hend, hne]

/-- The first `n` steps of a tunnel. -/
theorem wetSteps_begun (n : ℕ) (hn : n ≤ length) :
    let x := (List.range n).foldl (wetStep tunnel length moat) (L, .queenPlace)
    PartialTunnel length L.made n x.1 ∧ SameBelow L.made L x.1 ∧ x.2 = tunnelEnd L.made n := by
  induction n with
  | zero =>
    refine ⟨⟨rfl, ?_, ?_⟩, ⟨rfl, fun k _ => rfl⟩, rfl⟩
    · intro i hi
      omega
    · intro _ i hi
      omega
  | succ n ih =>
    obtain ⟨hbegun, hbelow, hend⟩ := ih (by omega)
    rw [List.range_succ, List.foldl_append, List.foldl_cons, List.foldl_nil]
    generalize (List.range n).foldl (wetStep tunnel length moat) (L, .queenPlace) = x at *
    obtain ⟨L', exit⟩ := x
    simp only at hbegun hbelow hend
    subst hend
    obtain ⟨hstep, hsame⟩ := @wetStep_begun L' tunnel length moat _ _ hbegun (by omega)
    refine ⟨hstep, hbelow.trans hsame, ?_⟩
    simp [wetStep, tunnelEnd, hbegun.made]

/-- A whole layout: the places of each tunnel lead on to the next one, and the last one to the
hive, at which the way ends. -/
structure Linked (tunnels length : ℕ) (L : Layout) : Prop where
  made : L.made = tunnels * length
  hive : L.entrance .hive = none
  inner : ∀ t < tunnels, ∀ i, i + 1 < length →
    L.entrance (.tunnel (t * length + i)) = some (.tunnel (t * length + (i + 1)))
  last : ∀ t < tunnels, ∀ i, i + 1 = length →
    L.entrance (.tunnel (t * length + i)) = some .hive

theorem wetTunnel_linked {tunnels : ℕ} (h : Linked tunnels length L) :
    Linked (tunnels + 1) length (wetTunnel length moat L tunnels) := by
  obtain ⟨hbegun, hbelow, -⟩ := @wetSteps_begun L tunnels length moat length le_rfl
  change PartialTunnel length L.made length (wetTunnel length moat L tunnels) at hbegun
  change SameBelow L.made L (wetTunnel length moat L tunnels) at hbelow
  rw [h.made] at hbegun hbelow
  have hlt : ∀ t < tunnels, ∀ i < length, t * length + i < tunnels * length := by
    intro t ht i hi
    calc t * length + i < (t + 1) * length := by rw [Nat.succ_mul]; omega
      _ ≤ tunnels * length := Nat.mul_le_mul_right _ ht
  constructor
  · rw [hbegun.made, Nat.succ_mul]
  · rw [hbelow.1, h.hive]
  · intro t ht i hi
    obtain rfl | ht' : t = tunnels ∨ t < tunnels := by omega
    · exact hbegun.inner i hi
    · rw [hbelow.2 _ (hlt t ht' i (by omega)), h.inner t ht' i hi]
  · intro t ht i hi
    obtain rfl | ht' : t = tunnels ∨ t < tunnels := by omega
    · exact hbegun.last rfl i hi
    · rw [hbelow.2 _ (hlt t ht' i (by omega)), h.last t ht' i hi]

theorem wetLayout_linked (tunnels length : ℕ) (moat : ℤ) :
    Linked tunnels length (Layout.configure (wetLayout tunnels length moat)) := by
  induction tunnels with
  | zero =>
    have hmade : (Layout.configure (wetLayout 0 length moat)).made = 0 := rfl
    constructor
    · rw [hmade, Nat.zero_mul]
    · rfl
    · intro t ht
      omega
    · intro t ht
      omega
  | succ tunnels ih =>
    have hstep : Layout.configure (wetLayout (tunnels + 1) length moat) =
        wetTunnel length moat (Layout.configure (wetLayout tunnels length moat)) tunnels := by
      simp [Layout.configure, wetLayout, List.range_succ]
    rw [hstep]
    exact wetTunnel_linked ih

/-- The way from a place of a tunnel: its later places, the hive, and nothing after that. -/
theorem Linked.along {tunnels : ℕ} (h : Linked tunnels length L) {t : ℕ} (ht : t < tunnels)
    (d : ℕ) : ∀ i, i < length → L.along (.tunnel (t * length + i)) d =
      if i + d < length then some (.tunnel (t * length + (i + d)))
      else if i + d = length then some .hive else none := by
  induction d with
  | zero =>
    intro i hi
    simp [Layout.along, hi]
  | succ d ih =>
    intro i hi
    rw [Layout.along]
    obtain hlast | hinner : i + 1 = length ∨ i + 1 < length := by omega
    · rw [h.last t ht i hlast, Option.bind_some, if_neg (by omega)]
      cases d with
      | zero => rw [if_pos (by omega), Layout.along]
      | succ d => rw [if_neg (by omega), Layout.along, h.hive, Option.bind_none]
    · rw [h.inner t ht i hinner, Option.bind_some, ih (i + 1) hinner,
        show i + 1 + d = i + (d + 1) by omega]

end Links

end Courses.Ants
