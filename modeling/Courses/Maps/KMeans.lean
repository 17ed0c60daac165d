import Courses.Lib.Clusters
import Courses.Lib.Fallible
import Mathlib.Data.List.MinMax
import Mathlib.Data.Rat.Defs

/-!
# Clusters of restaurants

`k_means` of the restaurant recommendations, with exact coordinates. A restaurant is whatever
has a location. Distances are only compared, so their squares are compared in their place.
-/
namespace Courses.Maps

open Courses.Lib

/-- Latitude and longitude. -/
abbrev Location := ℚ × ℚ

/-- The exceptions: a failed assertion of `k_means`, or of `mean`, and `min` of nothing. -/
inductive Failure
  | notEnoughRestaurants
  | emptyMean
  | emptyMin
  deriving DecidableEq

def distanceSq (pos1 pos2 : Location) : ℚ :=
  (pos1.1 - pos2.1) ^ 2 + (pos1.2 - pos2.2) ^ 2

/-- `min`, which returns the first of several minima. -/
def findClosest (location : Location) (centroids : List Location) : Except Failure Location :=
  match centroids.argmin fun c => distanceSq c location with
  | some c => .ok c
  | none => .error .emptyMin

section Groups

variable {κ β : Type} [DecidableEq κ]

/-- The loop over the pairs. -/
def firstKeys (pairs : List (κ × β)) : List κ :=
  pairs.foldl (fun keys p => if p.1 ∉ keys then keys ++ [p.1] else keys) []

def groupByFirst (pairs : List (κ × β)) : List (List β) :=
  (firstKeys pairs).map fun key => (pairs.filter fun p => p.1 = key).map Prod.snd

end Groups

def mean (s : List ℚ) : Except Failure ℚ :=
  if s.length > 0 then .ok (s.sum / s.length) else .error .emptyMean

variable {Restaurant : Type} (restaurantLocation : Restaurant → Location)

def groupByCentroid (restaurants : List Restaurant) (centroids : List Location) :
    Except Failure (List (List Restaurant)) := do
  let pairs ← restaurants.mapM fun rest => do
    let nearestCentroid ← findClosest (restaurantLocation rest) centroids
    return (nearestCentroid, rest)
  return groupByFirst pairs

def findCentroid (cluster : List Restaurant) : Except Failure Location := do
  let xs := cluster.map fun loc => (restaurantLocation loc).1
  let ys := cluster.map fun loc => (restaurantLocation loc).2
  return (← mean xs, ← mean ys)

/-- The new centroids of one round. -/
def update (restaurants : List Restaurant) (centroids : List Location) :
    Except Failure (List Location) := do
  let clusters ← groupByCentroid restaurantLocation restaurants centroids
  clusters.mapM (findCentroid restaurantLocation)

/-- The loop of `k_means`: the centroids, and `n` at its end. -/
def kMeansLoop (restaurants : List Restaurant) (maxUpdates n : ℤ)
    (oldCentroids centroids : List Location) : Except Failure (List Location × ℤ) :=
  if oldCentroids ≠ centroids ∧ n < maxUpdates then do
    let centroids' ← update restaurantLocation restaurants centroids
    kMeansLoop restaurants maxUpdates (n + 1) centroids centroids'
  else return (centroids, n)
termination_by (maxUpdates - n).toNat

/-- `k_means`, with what `sample` has chosen. -/
def kMeans (restaurants sampled : List Restaurant) (k : ℕ) (maxUpdates : ℤ) :
    Except Failure (List Location) :=
  if restaurants.length ≥ k then do
    let centroids := sampled.map restaurantLocation
    let (centroids, _) ← kMeansLoop restaurantLocation restaurants maxUpdates 0 [] centroids
    return centroids
  else .error .notEnoughRestaurants

/-! ## The nearest centroid -/

variable {restaurantLocation} {restaurants : List Restaurant} {centroids centroids' : List Location}
  {location c : Location}

/-- A centroid that none is nearer than, and none before it as near. -/
structure FirstNearest (location : Location) (centroids : List Location) (c : Location) :
    Prop where
  nearest : ∀ d ∈ centroids, distanceSq c location ≤ distanceSq d location
  first : ∃ before after, centroids = before ++ c :: after ∧
    ∀ d ∈ before, distanceSq c location < distanceSq d location

theorem FirstNearest.mem (h : FirstNearest location centroids c) : c ∈ centroids := by
  obtain ⟨before, after, heq, -⟩ := h.first
  rw [heq]
  simp

theorem FirstNearest.unique {d : Location} (hc : FirstNearest location centroids c)
    (hd : FirstNearest location centroids d) : c = d := by
  have hcd := hc.nearest d hd.mem
  have hdc := hd.nearest c hc.mem
  obtain ⟨before, after, heq, hbefore⟩ := hc.first
  obtain ⟨before', after', heq', hbefore'⟩ := hd.first
  rw [heq] at heq'
  obtain ⟨mid, hleft, hright⟩ | ⟨mid, hleft, hright⟩ := List.append_eq_append_iff.1 heq'
  · cases mid with
    | nil => exact (List.cons.inj hright).1
    | cons e mid =>
      have hmem : c ∈ before' := by
        rw [hleft, (List.cons.inj hright).1]
        simp
      exact absurd hcd (not_le.2 (hbefore' c hmem))
  · cases mid with
    | nil => exact (List.cons.inj hright).1.symm
    | cons e mid =>
      have hmem : d ∈ before := by
        rw [hleft, (List.cons.inj hright).1]
        simp
      exact absurd hdc (not_le.2 (hbefore d hmem))

theorem firstNearest_of_argmin
    (h : centroids.argmin (fun c => distanceSq c location) = some c) :
    FirstNearest location centroids c := by
  obtain ⟨before, after, heq, hbefore⟩ := argmin_first h
  exact ⟨fun d hd => List.le_of_mem_argmin hd h, before, after, heq, hbefore⟩

theorem findClosest_eq_ok_iff :
    findClosest location centroids = .ok c ↔ FirstNearest location centroids c := by
  unfold findClosest
  cases hmin : centroids.argmin fun c => distanceSq c location with
  | none =>
    rw [List.argmin_eq_none.1 hmin]
    exact iff_of_false (by simp) fun h => List.not_mem_nil h.mem
  | some d =>
    have hd := firstNearest_of_argmin hmin
    constructor
    · intro h
      cases h
      exact hd
    · intro h
      rw [hd.unique h]

/-- The nearest centroid, and a location where there is none. -/
def closest (centroids : List Location) (location : Location) : Location :=
  match findClosest location centroids with
  | .ok c => c
  | .error _ => (0, 0)

theorem findClosest_eq (h : centroids ≠ []) (location : Location) :
    findClosest location centroids = .ok (closest centroids location) := by
  cases hmin : centroids.argmin fun c => distanceSq c location with
  | none => exact absurd (List.argmin_eq_none.1 hmin) h
  | some c => simp [closest, findClosest, hmin]

theorem firstNearest_iff (h : centroids ≠ []) :
    FirstNearest location centroids c ↔ closest centroids location = c := by
  rw [← findClosest_eq_ok_iff, findClosest_eq h, Except.ok.injEq]

theorem firstNearest_closest (h : centroids ≠ []) (location : Location) :
    FirstNearest location centroids (closest centroids location) :=
  (firstNearest_iff h).2 rfl

/-! ## Groups -/

theorem firstKeys_concat {κ β : Type} [DecidableEq κ] (pairs : List (κ × β)) (p : κ × β) :
    firstKeys (pairs ++ [p]) =
      if p.1 ∉ firstKeys pairs then firstKeys pairs ++ [p.1] else firstKeys pairs :=
  List.foldl_append

theorem mem_firstKeys {κ β : Type} [DecidableEq κ] (pairs : List (κ × β)) {key : κ} :
    key ∈ firstKeys pairs ↔ ∃ p ∈ pairs, p.1 = key := by
  induction pairs using List.reverseRecOn with
  | nil => simp [firstKeys]
  | append_singleton pairs p ih =>
    rw [firstKeys_concat]
    by_cases hp : p.1 ∉ firstKeys pairs
    · rw [if_pos hp, List.mem_append, ih, List.mem_singleton]
      constructor
      · rintro (⟨q, hq, rfl⟩ | rfl)
        · exact ⟨q, List.mem_append_left _ hq, rfl⟩
        · exact ⟨p, by simp, rfl⟩
      · rintro ⟨q, hq, rfl⟩
        obtain hq | hq := List.mem_append.1 hq
        · exact .inl ⟨q, hq, rfl⟩
        · exact .inr (by rw [List.mem_singleton.1 hq])
    · rw [if_neg hp, ih]
      constructor
      · rintro ⟨q, hq, rfl⟩
        exact ⟨q, List.mem_append_left _ hq, rfl⟩
      · rintro ⟨q, hq, rfl⟩
        obtain hq | hq := List.mem_append.1 hq
        · exact ⟨q, hq, rfl⟩
        · rw [List.mem_singleton.1 hq] at ih ⊢
          exact ih.1 (not_not.1 hp)

theorem nodup_firstKeys {κ β : Type} [DecidableEq κ] (pairs : List (κ × β)) :
    (firstKeys pairs).Nodup := by
  induction pairs using List.reverseRecOn with
  | nil => exact .nil
  | append_singleton pairs p ih =>
    rw [firstKeys_concat]
    by_cases hp : p.1 ∉ firstKeys pairs
    · rw [if_pos hp]
      exact ih.append (List.nodup_singleton _) (by simpa using hp)
    · rw [if_neg hp]
      exact ih

variable (restaurantLocation restaurants centroids)

/-- The nearest centroid of a restaurant. -/
def nearestOf (r : Restaurant) : Location := closest centroids (restaurantLocation r)

/-- The nearest centroids, in the order of the restaurants they are the first nearest of. -/
def keysOf : List Location :=
  firstKeys (restaurants.map fun r => (nearestOf restaurantLocation centroids r, r))

def clustersOf : List (List Restaurant) :=
  (keysOf restaurantLocation restaurants centroids).map
    (classOf (nearestOf restaurantLocation centroids) restaurants)

variable {restaurantLocation restaurants centroids}

theorem groupByCentroid_eq (h : centroids ≠ []) :
    groupByCentroid restaurantLocation restaurants centroids =
      .ok (clustersOf restaurantLocation restaurants centroids) := by
  have hpairs : (restaurants.mapM fun rest => do
      let nearestCentroid ← findClosest (restaurantLocation rest) centroids
      return (nearestCentroid, rest)) =
      .ok (restaurants.map fun r => (nearestOf restaurantLocation centroids r, r)) := by
    apply mapM_ok
    intro r _
    rw [findClosest_eq h]
    rfl
  rw [groupByCentroid, hpairs]
  change Except.ok (groupByFirst _) = _
  rw [groupByFirst, clustersOf, keysOf]
  congr 2
  funext key
  simp [classOf, List.filter_map, Function.comp_def]

theorem keysOf_nodup : (keysOf restaurantLocation restaurants centroids).Nodup :=
  nodup_firstKeys _

theorem mem_keysOf {c : Location} :
    c ∈ keysOf restaurantLocation restaurants centroids ↔
      ∃ r ∈ restaurants, nearestOf restaurantLocation centroids r = c := by
  rw [keysOf, mem_firstKeys]
  simp

theorem nearestOf_mem_keysOf : ∀ r ∈ restaurants, nearestOf restaurantLocation centroids r ∈
    keysOf restaurantLocation restaurants centroids :=
  fun r hr => mem_keysOf.2 ⟨r, hr, rfl⟩

theorem classOf_ne_nil {c : Location} (h : c ∈ keysOf restaurantLocation restaurants centroids) :
    classOf (nearestOf restaurantLocation centroids) restaurants c ≠ [] := by
  obtain ⟨r, hr, hc⟩ := mem_keysOf.1 h
  exact List.ne_nil_of_mem (mem_classOf.2 ⟨hr, hc⟩)

theorem clustersOf_perm :
    (clustersOf restaurantLocation restaurants centroids).flatten.Perm restaurants :=
  flatMap_classOf_perm keysOf_nodup nearestOf_mem_keysOf

/-! ## New centroids -/

/-- The mean of the locations. -/
def centroidOf (restaurantLocation : Restaurant → Location) (cluster : List Restaurant) :
    Location :=
  ((cluster.map fun r => (restaurantLocation r).1).sum / cluster.length,
    (cluster.map fun r => (restaurantLocation r).2).sum / cluster.length)

theorem mean_eq {s : List ℚ} (h : s ≠ []) : mean s = .ok (s.sum / s.length) :=
  if_pos (List.length_pos_iff.2 h)

theorem findCentroid_eq {cluster : List Restaurant} (h : cluster ≠ []) :
    findCentroid restaurantLocation cluster = .ok (centroidOf restaurantLocation cluster) := by
  rw [findCentroid, mean_eq (by simpa using h), mean_eq (by simpa using h), List.length_map,
    List.length_map]
  rfl

/-- No location is closer to a cluster than its centroid. -/
theorem sum_distanceSq_centroidOf_le {cluster : List Restaurant} (h : cluster ≠ [])
    (c : Location) :
    (cluster.map fun r =>
        distanceSq (centroidOf restaurantLocation cluster) (restaurantLocation r)).sum ≤
      (cluster.map fun r => distanceSq c (restaurantLocation r)).sum := by
  have hsplit : ∀ c : Location, (cluster.map fun r => distanceSq c (restaurantLocation r)).sum =
      ((cluster.map fun r => (restaurantLocation r).1).map fun x => (x - c.1) ^ 2).sum +
        ((cluster.map fun r => (restaurantLocation r).2).map fun y => (y - c.2) ^ 2).sum := by
    intro c
    rw [List.map_map, List.map_map, ← List.sum_map_add]
    congr 2
    funext r
    simp only [distanceSq, Function.comp_apply]
    ring
  have hne : ∀ f : Restaurant → ℚ, cluster.map f ≠ [] := fun f => by simpa using h
  have hfirst := sum_sub_mean_sq_le (hne fun r => (restaurantLocation r).1) c.1
  have hsecond := sum_sub_mean_sq_le (hne fun r => (restaurantLocation r).2) c.2
  rw [List.length_map] at hfirst hsecond
  rw [hsplit, hsplit]
  exact add_le_add hfirst hsecond

/-- The total squared distance of the restaurants to their nearest centroids. -/
def cost (restaurantLocation : Restaurant → Location) (restaurants : List Restaurant)
    (centroids : List Location) : ℚ :=
  (restaurants.map fun r =>
    distanceSq (nearestOf restaurantLocation centroids r) (restaurantLocation r)).sum

theorem update_eq (h : centroids ≠ []) :
    update restaurantLocation restaurants centroids =
      .ok ((clustersOf restaurantLocation restaurants centroids).map
        (centroidOf restaurantLocation)) := by
  rw [update, groupByCentroid_eq h]
  apply mapM_ok
  intro cluster hcluster
  obtain ⟨c, hc, rfl⟩ := List.mem_map.1 hcluster
  exact findCentroid_eq (classOf_ne_nil hc)

theorem update_ne_nil (hr : restaurants ≠ []) :
    (clustersOf restaurantLocation restaurants centroids).map
      (centroidOf restaurantLocation) ≠ [] := by
  obtain ⟨r, hmem⟩ := List.exists_mem_of_ne_nil _ hr
  have hkey : nearestOf restaurantLocation centroids r ∈
      keysOf restaurantLocation restaurants centroids := nearestOf_mem_keysOf r hmem
  simpa [clustersOf] using List.ne_nil_of_mem hkey

/-- New centroids are nearer to the restaurants altogether. -/
theorem cost_update_le (h : centroids ≠ [])
    (hupdate : update restaurantLocation restaurants centroids = .ok centroids') :
    cost restaurantLocation restaurants centroids' ≤
      cost restaurantLocation restaurants centroids := by
  rw [update_eq h] at hupdate
  have hsum : ∀ f : Restaurant → ℚ, (restaurants.map f).sum =
      ((keysOf restaurantLocation restaurants centroids).map fun c =>
        ((classOf (nearestOf restaurantLocation centroids) restaurants c).map f).sum).sum :=
    sum_map_classOf keysOf_nodup nearestOf_mem_keysOf
  rw [cost, cost, hsum, hsum]
  apply List.sum_le_sum
  intro c hc
  have hmem : centroidOf restaurantLocation
      (classOf (nearestOf restaurantLocation centroids) restaurants c) ∈ centroids' := by
    rw [← Except.ok.inj hupdate]
    exact List.mem_map_of_mem (List.mem_map_of_mem hc)
  have hne' := List.ne_nil_of_mem hmem
  calc _ ≤ ((classOf (nearestOf restaurantLocation centroids) restaurants c).map fun r =>
        distanceSq (centroidOf restaurantLocation
          (classOf (nearestOf restaurantLocation centroids) restaurants c))
            (restaurantLocation r)).sum :=
        List.sum_le_sum fun r _ => (firstNearest_closest hne' _).nearest _ hmem
    _ ≤ ((classOf (nearestOf restaurantLocation centroids) restaurants c).map fun r =>
        distanceSq c (restaurantLocation r)).sum :=
        sum_distanceSq_centroidOf_le (classOf_ne_nil hc) c
    _ = _ := by
        congr 1
        apply List.map_congr_left
        intro r hr
        rw [(mem_classOf.1 hr).2]

/-! ## The loop -/

/-- The loop ends at its bound, or at centroids that are not updated any more. -/
theorem kMeansLoop_ok (hr : restaurants ≠ []) (maxUpdates n : ℤ) {old : List Location}
    (hne : centroids ≠ [])
    (hold : old = [] ∨ update restaurantLocation restaurants old = .ok centroids) :
    ∃ cs m, kMeansLoop restaurantLocation restaurants maxUpdates n old centroids =
      .ok (cs, m) ∧ (m < maxUpdates → update restaurantLocation restaurants cs = .ok cs) := by
  induction hk : (maxUpdates - n).toNat generalizing n old centroids with
  | zero =>
    refine ⟨centroids, n, ?_, fun hlt => by omega⟩
    rw [kMeansLoop, if_neg (by omega)]
    rfl
  | succ k ih =>
    rw [kMeansLoop]
    by_cases hgo : old ≠ centroids ∧ n < maxUpdates
    · have hupdate : update restaurantLocation restaurants centroids =
          .ok ((clustersOf restaurantLocation restaurants centroids).map
            (centroidOf restaurantLocation)) := update_eq hne
      obtain ⟨cs, m, hrun, hfixed⟩ := ih (n + 1) (update_ne_nil hr) (.inr hupdate) (by omega)
      refine ⟨cs, m, ?_, hfixed⟩
      rw [if_pos hgo, hupdate]
      exact hrun
    · rw [if_neg hgo]
      refine ⟨centroids, n, rfl, fun hlt => ?_⟩
      have hsame : old = centroids := by
        by_contra hdiff
        exact hgo ⟨hdiff, hlt⟩
      obtain hnil | hupdate := hold
      · exact absurd (hsame.symm.trans hnil) hne
      · rwa [hsame] at hupdate

/-- `k_means` succeeds, and ends early at a fixed point only. In every round the clusters are a
partition of the restaurants, and the costs do not grow. -/
theorem kMeans_improves (restaurantLocation : Restaurant → Location)
    (restaurants sampled : List Restaurant) (k : ℕ) (maxUpdates : ℤ) (hk : 1 ≤ k)
    (hle : k ≤ restaurants.length) (hsampled : sampled.length = k) :
    (∃ cs n, kMeansLoop restaurantLocation restaurants maxUpdates 0 []
          (sampled.map restaurantLocation) = .ok (cs, n) ∧
        kMeans restaurantLocation restaurants sampled k maxUpdates = .ok cs ∧
        (n < maxUpdates → update restaurantLocation restaurants cs = .ok cs)) ∧
      ∀ centroids ≠ [], ∃ clusters centroids',
        groupByCentroid restaurantLocation restaurants centroids = .ok clusters ∧
        clusters.flatten.Perm restaurants ∧
        (∃ keys : List Location, keys.Nodup ∧ List.Forall₂ (fun c cluster => cluster ≠ [] ∧
          ∀ r, r ∈ cluster ↔ r ∈ restaurants ∧ FirstNearest (restaurantLocation r) centroids c)
            keys clusters) ∧
        update restaurantLocation restaurants centroids = .ok centroids' ∧ centroids' ≠ [] ∧
        cost restaurantLocation restaurants centroids' ≤
          cost restaurantLocation restaurants centroids := by
  have hr : restaurants ≠ [] := List.length_pos_iff.1 (by omega)
  constructor
  · have hne : sampled.map restaurantLocation ≠ [] := by
      rw [Ne, List.map_eq_nil_iff]
      exact List.length_pos_iff.1 (by omega)
    obtain ⟨cs, n, hrun, hfixed⟩ := kMeansLoop_ok hr maxUpdates 0 hne (.inl rfl)
    refine ⟨cs, n, hrun, ?_, hfixed⟩
    rw [kMeans, if_pos hle]
    change (kMeansLoop restaurantLocation restaurants maxUpdates 0 []
      (sampled.map restaurantLocation) >>= fun r => pure r.1) = _
    rw [hrun]
    rfl
  · intro centroids hne
    refine ⟨_, _, groupByCentroid_eq hne, clustersOf_perm, ?_, update_eq hne, update_ne_nil hr,
      cost_update_le hne (update_eq hne)⟩
    refine ⟨keysOf restaurantLocation restaurants centroids, keysOf_nodup, ?_⟩
    rw [clustersOf, List.forall₂_map_right_iff]
    apply List.forall₂_same.2
    intro c hc
    refine ⟨classOf_ne_nil hc, fun r => ?_⟩
    rw [mem_classOf, firstNearest_iff hne]
    rfl

theorem kMeans_improves_three :
    ∃ cs, kMeans id [(0, 0), (0, 2), (10, 0)] [((0, 0) : Location), (10, 0)] 2 100 = .ok cs := by
  obtain ⟨⟨cs, n, -, hcs, -⟩, -⟩ := kMeans_improves id
    [(0, 0), (0, 2), (10, 0)] [((0, 0) : Location), (10, 0)] 2 100 (by decide) (by decide) rfl
  exact ⟨cs, hcs⟩

end Courses.Maps
