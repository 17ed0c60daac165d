import Courses.Lib.Regression
import Courses.Maps.KMeans
import Mathlib.Data.List.AList

/-!
# Predicted ratings

`find_predictor`, `best_predictor` and `rate_all` of the restaurant recommendations, with exact
numbers. A restaurant is whatever has a name. No order of a dictionary is used here, and a
dictionary is a list of entries in some order.
-/
namespace Courses.Maps

open Courses.Lib

structure Review where
  restaurantName : String
  rating : ℚ
  deriving DecidableEq

/-- A dictionary whose keys are names of restaurants. -/
abbrev Dict (β : Type) := AList fun _ : String => β

/-- `{review_restaurant_name(r): r for r in reviews}` -/
def reviewDict (reviews : List Review) : Dict Review :=
  reviews.foldl (fun d r => d.insert r.restaurantName r) ∅

structure User where
  name : String
  reviews : Dict Review
  reviewed : ∀ name r, reviews.lookup name = some r → r.restaurantName = name

/-- The exceptions: those of `mean`, a missing key, a division by zero, and `max` of nothing. -/
inductive Exn
  | mean (failure : Failure)
  | keyError
  | zeroDivision
  | emptyMax
  deriving DecidableEq

def getItem {β : Type} (d : Dict β) (key : String) : Except Exn β :=
  match d.lookup key with
  | some v => .ok v
  | none => .error .keyError

def quotient (a b : ℚ) : Except Exn ℚ := if b = 0 then .error .zeroDivision else .ok (a / b)

/-- `mean`, as one of the functions that raise an `Exn`. -/
def meanOf (s : List ℚ) : Except Exn ℚ := (mean s).mapError Exn.mean

section

variable {Restaurant : Type} (restaurantName : Restaurant → String)

def userReviewedRestaurants (user : User) (restaurants : List Restaurant) : List Restaurant :=
  restaurants.filter fun r => decide (restaurantName r ∈ user.reviews.keys)

def reviewsByUser (user : User) : Dict ℚ :=
  (user.reviews.entries.map Sigma.snd).foldl (fun d review =>
    d.insert review.restaurantName review.rating) ∅

abbrev Predictor (Restaurant : Type) := Restaurant → ℚ

/-- The predictor and `r_squared`. -/
def findPredictor (user : User) (restaurants : List Restaurant) (featureFn : Restaurant → ℚ) :
    Except Exn (Predictor Restaurant × ℚ) := do
  let xs := restaurants.map featureFn
  let ys ← restaurants.mapM fun r => getItem (reviewsByUser user) (restaurantName r)
  let meanXs ← meanOf xs
  let meanYs ← meanOf ys
  let sXX := (xs.map fun x => (x - meanXs) * (x - meanXs)).sum
  let sYY := (ys.map fun y => (y - meanYs) * (y - meanYs)).sum
  let sXY := ((xs.zip ys).map fun p => (p.1 - meanXs) * (p.2 - meanYs)).sum
  let b ← quotient sXY sXX
  let a := (← meanOf ys) - (← quotient sXY sXX) * (← meanOf xs)
  let rSquared ← quotient (sXY * sXY) (sXX * sYY)
  return (fun restaurant => b * featureFn restaurant + a, rSquared)

/-- `max` returns the first of several maxima. -/
def bestPredictor (user : User) (restaurants : List Restaurant)
    (featureFns : List (Restaurant → ℚ)) : Except Exn (Predictor Restaurant) := do
  let reviewed := userReviewedRestaurants restaurantName user restaurants
  let models ← featureFns.mapM fun fn => findPredictor restaurantName user reviewed fn
  match models.argmax Prod.snd with
  | some p => .ok p.1
  | none => .error .emptyMax

/-- The loop of `rate_all` over the restaurants. -/
def predictOthers (predictor : Predictor Restaurant) (restaurants : List Restaurant)
    (ratings : Dict ℚ) : Dict ℚ :=
  restaurants.foldl (fun ratings r =>
    if restaurantName r ∉ ratings then ratings.insert (restaurantName r) (predictor r)
    else ratings) ratings

/-- `rate_all`, where `allRestaurants` is `ALL_RESTAURANTS`. -/
def rateAll (allRestaurants : List Restaurant) (user : User) (restaurants : List Restaurant)
    (featureFns : List (Restaurant → ℚ)) : Except Exn (Dict ℚ) := do
  let predictor ← bestPredictor restaurantName user allRestaurants featureFns
  let reviewed := userReviewedRestaurants restaurantName user restaurants
  let ratings ← reviewed.foldlM (fun ratings r => do
    let review ← getItem user.reviews (restaurantName r)
    return ratings.insert (restaurantName r) review.rating) (∅ : Dict ℚ)
  return predictOthers restaurantName predictor restaurants ratings

end

/-! ## Dictionaries of reviews -/

theorem lookup_reviewDict (reviews : List Review) : ∀ {d : Dict Review},
    (∀ name r, d.lookup name = some r → r.restaurantName = name) →
    ∀ name r, (reviews.foldl (fun d r => d.insert r.restaurantName r) d).lookup name = some r →
      r.restaurantName = name := by
  induction reviews with
  | nil =>
    intro d hd
    exact hd
  | cons review reviews ih =>
    intro d hd
    apply ih
    intro name r hr
    by_cases hname : name = review.restaurantName
    · rw [hname, AList.lookup_insert, Option.some.injEq] at hr
      rw [← hr, hname]
    · rw [AList.lookup_insert_ne hname] at hr
      exact hd name r hr

def makeUser (name : String) (reviews : List Review) : User where
  name := name
  reviews := reviewDict reviews
  reviewed := lookup_reviewDict reviews fun _ _ h => by cases h

theorem lookup_foldl_ratings (entries : List (Sigma fun _ : String => Review)) : ∀ (d : Dict ℚ),
    entries.NodupKeys → (∀ e ∈ entries, e.2.restaurantName = e.1) → ∀ name,
    ((entries.map Sigma.snd).foldl (fun d review =>
      d.insert review.restaurantName review.rating) d).lookup name =
      (entries.dlookup name).elim (d.lookup name) fun review => some review.rating := by
  induction entries with
  | nil =>
    intro d _ _ name
    rfl
  | cons e entries ih =>
    intro d hnodup hkeys name
    obtain ⟨hnot, hnodup⟩ := List.nodupKeys_cons.mp hnodup
    rw [List.map_cons, List.foldl_cons, hkeys e List.mem_cons_self,
      ih _ hnodup fun e he => hkeys e (List.mem_cons_of_mem _ he)]
    by_cases hname : name = e.1
    · rw [hname, List.dlookup_cons_eq, List.dlookup_eq_none.mpr hnot]
      exact AList.lookup_insert d
    · rw [List.dlookup_cons_ne _ e hname, AList.lookup_insert_ne hname]

theorem lookup_reviewsByUser (user : User) (name : String) :
    (reviewsByUser user).lookup name = (user.reviews.lookup name).map Review.rating := by
  have hkeys : ∀ e ∈ user.reviews.entries, e.2.restaurantName = e.1 := by
    intro e he
    exact user.reviewed e.1 e.2 (List.mem_dlookup user.reviews.nodupKeys he)
  rw [reviewsByUser, lookup_foldl_ratings _ _ user.reviews.nodupKeys hkeys, ← AList.lookup]
  cases user.reviews.lookup name with
  | none => rfl
  | some review => rfl

section Ratings

variable {Restaurant : Type} {restaurantName : Restaurant → String} {user : User}
  {restaurants : List Restaurant}

variable (restaurantName user) in
/-- What the user has given a restaurant, or 0. -/
def rating (r : Restaurant) : ℚ :=
  ((user.reviews.lookup (restaurantName r)).map Review.rating).getD 0

/-- All of the restaurants are reviewed. -/
def Reviewed (restaurantName : Restaurant → String) (user : User)
    (restaurants : List Restaurant) : Prop :=
  ∀ r ∈ restaurants, restaurantName r ∈ user.reviews

theorem reviewed_restaurants :
    Reviewed restaurantName user (userReviewedRestaurants restaurantName user restaurants) := by
  intro r hr
  rw [userReviewedRestaurants, List.mem_filter, decide_eq_true_eq] at hr
  exact AList.mem_keys.mpr hr.2

theorem getItem_review (h : Reviewed restaurantName user restaurants) {r : Restaurant}
    (hr : r ∈ restaurants) :
    ∃ review, getItem user.reviews (restaurantName r) = .ok review ∧
      user.reviews.lookup (restaurantName r) = some review := by
  obtain ⟨review, hreview⟩ := Option.isSome_iff_exists.mp (AList.lookup_isSome.mpr (h r hr))
  exact ⟨review, by rw [getItem, hreview], hreview⟩

theorem getItem_rating (h : Reviewed restaurantName user restaurants) {r : Restaurant}
    (hr : r ∈ restaurants) :
    getItem (reviewsByUser user) (restaurantName r) = .ok (rating restaurantName user r) := by
  obtain ⟨review, -, hreview⟩ := getItem_review h hr
  rw [getItem, lookup_reviewsByUser, rating, hreview]
  rfl

end Ratings

/-! ## One predictor -/

section Predictor

open Regression

variable {Restaurant : Type} {restaurantName : Restaurant → String} {user : User}
  {restaurants : List Restaurant} {fn : Restaurant → ℚ}

theorem meanOf_map (hne : restaurants ≠ []) (f : Restaurant → ℚ) :
    meanOf (restaurants.map f) = .ok (avg restaurants f) := by
  have hlength : (restaurants.map f).length > 0 := by
    rw [List.length_map]
    exact List.length_pos_iff.mpr hne
  rw [meanOf, mean, if_pos hlength, List.length_map, avg]
  rfl

/-- The slope and the distance at 0 of the regression line. -/
def regression (restaurantName : Restaurant → String) (user : User)
    (restaurants : List Restaurant) (fn : Restaurant → ℚ) : Predictor Restaurant :=
  line fn (dev restaurants fn (rating restaurantName user) / dev restaurants fn fn)
    (avg restaurants (rating restaurantName user) -
      dev restaurants fn (rating restaurantName user) / dev restaurants fn fn *
        avg restaurants fn)

/-- The share of the squared deviations that a feature explains. -/
def explained (restaurantName : Restaurant → String) (user : User)
    (restaurants : List Restaurant) (fn : Restaurant → ℚ) : ℚ :=
  dev restaurants fn (rating restaurantName user) *
      dev restaurants fn (rating restaurantName user) /
    (dev restaurants fn fn *
      dev restaurants (rating restaurantName user) (rating restaurantName user))

theorem findPredictor_eq (h : Reviewed restaurantName user restaurants) (hne : restaurants ≠ []) :
    findPredictor restaurantName user restaurants fn = (do
      let b ← quotient (dev restaurants fn (rating restaurantName user)) (dev restaurants fn fn)
      let rSquared ← quotient
        (dev restaurants fn (rating restaurantName user) *
          dev restaurants fn (rating restaurantName user))
        (dev restaurants fn fn *
          dev restaurants (rating restaurantName user) (rating restaurantName user))
      return (line fn b (avg restaurants (rating restaurantName user) - b * avg restaurants fn),
        rSquared)) := by
  have hys : (restaurants.mapM fun r => getItem (reviewsByUser user) (restaurantName r)) =
      .ok (restaurants.map (rating restaurantName user)) :=
    mapM_ok fun r hr => getItem_rating h hr
  have hzip : (restaurants.map fn).zip (restaurants.map (rating restaurantName user)) =
      restaurants.map fun r => (fn r, rating restaurantName user r) := List.zip_map'
  have hsXX : ((restaurants.map fn).map fun x =>
      (x - avg restaurants fn) * (x - avg restaurants fn)).sum = dev restaurants fn fn := by
    rw [List.map_map]
    rfl
  have hsYY : ((restaurants.map (rating restaurantName user)).map fun y =>
      (y - avg restaurants (rating restaurantName user)) *
        (y - avg restaurants (rating restaurantName user))).sum =
      dev restaurants (rating restaurantName user) (rating restaurantName user) := by
    rw [List.map_map]
    rfl
  have hsXY : (((restaurants.map fn).zip (restaurants.map (rating restaurantName user))).map
      fun p => (p.1 - avg restaurants fn) *
        (p.2 - avg restaurants (rating restaurantName user))).sum =
      dev restaurants fn (rating restaurantName user) := by
    rw [hzip, List.map_map]
    rfl
  rw [findPredictor, hys]
  simp only [bind, Except.bind, meanOf_map hne, hsXX, hsYY, hsXY]
  cases quotient (dev restaurants fn (rating restaurantName user)) (dev restaurants fn fn) with
  | error e => rfl
  | ok b => rfl

theorem quotient_ok {a b : ℚ} (hb : b ≠ 0) : quotient a b = .ok (a / b) := if_neg hb

theorem findPredictor_ok (h : Reviewed restaurantName user restaurants) (hne : restaurants ≠ [])
    (hf : dev restaurants fn fn ≠ 0)
    (hr : dev restaurants (rating restaurantName user) (rating restaurantName user) ≠ 0) :
    findPredictor restaurantName user restaurants fn =
      .ok (regression restaurantName user restaurants fn,
        explained restaurantName user restaurants fn) := by
  rw [findPredictor_eq h hne, quotient_ok hf, quotient_ok (mul_ne_zero hf hr)]
  rfl

/-- A predictor is returned only if no divisor vanishes. -/
theorem of_findPredictor_ok (h : Reviewed restaurantName user restaurants)
    {p : Predictor Restaurant × ℚ}
    (hok : findPredictor restaurantName user restaurants fn = .ok p) :
    dev restaurants fn fn ≠ 0 ∧
      dev restaurants (rating restaurantName user) (rating restaurantName user) ≠ 0 := by
  by_cases hne : restaurants = []
  · rw [hne] at hok
    cases hok
  · rw [findPredictor_eq h hne] at hok
    constructor
    · intro hzero
      rw [hzero, quotient, if_pos rfl] at hok
      cases hok
    · intro hzero
      rw [hzero, mul_zero, quotient, quotient, if_pos rfl] at hok
      split at hok
      · cases hok
      · cases hok

/-! ## The least error -/

/-- The least sum of squared errors of a linear function of a feature. -/
def leastError (restaurantName : Restaurant → String) (user : User)
    (restaurants : List Restaurant) (fn : Restaurant → ℚ) : ℚ :=
  dev restaurants (rating restaurantName user) (rating restaurantName user) -
    dev restaurants fn (rating restaurantName user) *
      dev restaurants fn (rating restaurantName user) / dev restaurants fn fn

theorem explained_eq (hf : dev restaurants fn fn ≠ 0)
    (hr : dev restaurants (rating restaurantName user) (rating restaurantName user) ≠ 0) :
    explained restaurantName user restaurants fn =
      1 - leastError restaurantName user restaurants fn /
        dev restaurants (rating restaurantName user) (rating restaurantName user) := by
  rw [explained, leastError]
  field_simp
  ring

theorem leastError_le_of_explained_le {fn' : Restaurant → ℚ} (hf : dev restaurants fn fn ≠ 0)
    (hf' : dev restaurants fn' fn' ≠ 0)
    (hr : dev restaurants (rating restaurantName user) (rating restaurantName user) ≠ 0)
    (hle : explained restaurantName user restaurants fn' ≤
      explained restaurantName user restaurants fn) :
    leastError restaurantName user restaurants fn ≤
      leastError restaurantName user restaurants fn' := by
  have hpos : 0 < dev restaurants (rating restaurantName user) (rating restaurantName user) :=
    lt_of_le_of_ne (dev_self_nonneg restaurants _) hr.symm
  rw [explained_eq hf hr, explained_eq hf' hr, sub_le_sub_iff_left,
    div_le_div_iff_of_pos_right hpos] at hle
  exact hle

end Predictor

/-! ## The best of several predictors -/

section Best

open Regression

variable {Restaurant : Type} (restaurantName : Restaurant → String) (user : User)
  (restaurants : List Restaurant)

/-- A feature, or the ratings, has at least two different values. -/
def Varies (restaurants : List Restaurant) (f : Restaurant → ℚ) : Prop :=
  ∃ r ∈ restaurants, ∃ r' ∈ restaurants, f r ≠ f r'

theorem Varies.ne_nil {restaurants : List Restaurant} {f : Restaurant → ℚ}
    (h : Varies restaurants f) : restaurants ≠ [] := by
  obtain ⟨r, hr, _⟩ := h
  exact List.ne_nil_of_mem hr

/-- The sum of the squared errors of a predictor on the reviewed restaurants. -/
def predictionError (p : Predictor Restaurant) : ℚ :=
  sqError (userReviewedRestaurants restaurantName user restaurants) (rating restaurantName user) p

/-- The squared deviations of the ratings of the reviewed restaurants from their mean. -/
def totalSquares : ℚ :=
  ((userReviewedRestaurants restaurantName user restaurants).map fun r =>
    (rating restaurantName user r -
      avg (userReviewedRestaurants restaurantName user restaurants)
        (rating restaurantName user)) ^ 2).sum

/-- A linear function of a feature whose error is least among these. -/
structure LeastSquares (fn : Restaurant → ℚ) (p : Predictor Restaurant) : Prop where
  linear : ∃ b a, p = line fn b a
  least : ∀ b a, predictionError restaurantName user restaurants p ≤
    predictionError restaurantName user restaurants (line fn b a)

variable {restaurantName user restaurants} {fn : Restaurant → ℚ}
  {featureFns : List (Restaurant → ℚ)}

theorem predictionError_regression
    (hfn : Varies (userReviewedRestaurants restaurantName user restaurants) fn) :
    predictionError restaurantName user restaurants
      (regression restaurantName user (userReviewedRestaurants restaurantName user restaurants)
        fn) =
      leastError restaurantName user (userReviewedRestaurants restaurantName user restaurants) fn :=
  sqError_regression (hfn.ne_nil) (dev_self_ne_zero.mpr hfn)

theorem leastSquares_regression
    (hfn : Varies (userReviewedRestaurants restaurantName user restaurants) fn) :
    LeastSquares restaurantName user restaurants fn
      (regression restaurantName user (userReviewedRestaurants restaurantName user restaurants)
        fn) := by
  constructor
  · exact ⟨_, _, rfl⟩
  · intro b a
    rw [predictionError_regression hfn]
    exact le_sqError_line hfn.ne_nil (dev_self_ne_zero.mpr hfn) b a

theorem totalSquares_eq : totalSquares restaurantName user restaurants =
    dev (userReviewedRestaurants restaurantName user restaurants) (rating restaurantName user)
      (rating restaurantName user) := by
  simp only [totalSquares, dev, sq]

theorem models_eq
    (hfeatures : ∀ fn ∈ featureFns,
      Varies (userReviewedRestaurants restaurantName user restaurants) fn)
    (hratings : Varies (userReviewedRestaurants restaurantName user restaurants)
      (rating restaurantName user)) :
    (featureFns.mapM fun fn => findPredictor restaurantName user
      (userReviewedRestaurants restaurantName user restaurants) fn) =
      .ok (featureFns.map fun fn =>
        (regression restaurantName user (userReviewedRestaurants restaurantName user restaurants)
          fn,
        explained restaurantName user (userReviewedRestaurants restaurantName user restaurants)
          fn)) := by
  apply mapM_ok
  intro fn hfn
  exact findPredictor_ok reviewed_restaurants hratings.ne_nil
    (dev_self_ne_zero.mpr (hfeatures fn hfn)) (dev_self_ne_zero.mpr hratings)

/-- The regression of a feature that explains the most is returned. -/
theorem bestPredictor_ok (hne : featureFns ≠ [])
    (hfeatures : ∀ fn ∈ featureFns,
      Varies (userReviewedRestaurants restaurantName user restaurants) fn)
    (hratings : Varies (userReviewedRestaurants restaurantName user restaurants)
      (rating restaurantName user)) :
    ∃ fn ∈ featureFns, bestPredictor restaurantName user restaurants featureFns =
        .ok (regression restaurantName user
          (userReviewedRestaurants restaurantName user restaurants) fn) ∧
      ∀ fn' ∈ featureFns,
        explained restaurantName user (userReviewedRestaurants restaurantName user restaurants)
          fn' ≤
        explained restaurantName user (userReviewedRestaurants restaurantName user restaurants)
          fn := by
  rw [bestPredictor, models_eq hfeatures hratings]
  cases hmax : (featureFns.map fun fn =>
      (regression restaurantName user (userReviewedRestaurants restaurantName user restaurants) fn,
      explained restaurantName user (userReviewedRestaurants restaurantName user restaurants)
        fn)).argmax Prod.snd with
  | none =>
    rw [List.argmax_eq_none, List.map_eq_nil_iff] at hmax
    exact absurd hmax hne
  | some p =>
    obtain ⟨fn, hfn, rfl⟩ := List.mem_map.mp (List.argmax_mem hmax)
    refine ⟨fn, hfn, ?_, ?_⟩
    · simp only [bind, Except.bind, hmax]
    · intro fn' hfn'
      have hmem := List.mem_map_of_mem (f := fun fn =>
        (regression restaurantName user (userReviewedRestaurants restaurantName user restaurants)
          fn,
        explained restaurantName user (userReviewedRestaurants restaurantName user restaurants)
          fn)) hfn'
      have hle := List.le_of_mem_argmax hmem hmax
      exact hle

theorem of_bestPredictor_ok {p : Predictor Restaurant}
    (hok : bestPredictor restaurantName user restaurants featureFns = .ok p) :
    ∀ fn ∈ featureFns, Varies (userReviewedRestaurants restaurantName user restaurants) fn ∧
      Varies (userReviewedRestaurants restaurantName user restaurants)
        (rating restaurantName user) := by
  intro fn hfn
  cases hmodels : featureFns.mapM fun fn => findPredictor restaurantName user
      (userReviewedRestaurants restaurantName user restaurants) fn with
  | error e =>
    rw [bestPredictor, hmodels] at hok
    cases hok
  | ok models =>
    obtain ⟨model, _, hmodel⟩ := of_mapM_ok hmodels fn hfn
    obtain ⟨hf, hr⟩ := of_findPredictor_ok reviewed_restaurants hmodel
    exact ⟨dev_self_ne_zero.mp hf, dev_self_ne_zero.mp hr⟩

/-- For features and ratings that vary, every predictor is the linear function with the least
error, and the best predictor has the least error of all linear functions of a feature. -/
theorem predictors_leastSquares (hne : featureFns ≠ [])
    (hfeatures : ∀ fn ∈ featureFns,
      Varies (userReviewedRestaurants restaurantName user restaurants) fn)
    (hratings : Varies (userReviewedRestaurants restaurantName user restaurants)
      (rating restaurantName user)) :
    (∀ fn ∈ featureFns, ∃ p rSquared, findPredictor restaurantName user
        (userReviewedRestaurants restaurantName user restaurants) fn = .ok (p, rSquared) ∧
      LeastSquares restaurantName user restaurants fn p ∧
      rSquared = 1 - predictionError restaurantName user restaurants p /
        totalSquares restaurantName user restaurants) ∧
    ∃ p, bestPredictor restaurantName user restaurants featureFns = .ok p ∧
      (∃ fn ∈ featureFns, ∃ b a, p = line fn b a) ∧
      ∀ fn ∈ featureFns, ∀ b a, predictionError restaurantName user restaurants p ≤
        predictionError restaurantName user restaurants (line fn b a) := by
  constructor
  · intro fn hfn
    refine ⟨_, _, findPredictor_ok reviewed_restaurants hratings.ne_nil
      (dev_self_ne_zero.mpr (hfeatures fn hfn)) (dev_self_ne_zero.mpr hratings),
      leastSquares_regression (hfeatures fn hfn), ?_⟩
    rw [predictionError_regression (hfeatures fn hfn), totalSquares_eq,
      explained_eq (dev_self_ne_zero.mpr (hfeatures fn hfn)) (dev_self_ne_zero.mpr hratings)]
  · obtain ⟨fn, hfn, hbest, hmax⟩ := bestPredictor_ok hne hfeatures hratings
    refine ⟨_, hbest, ⟨fn, hfn, _, _, rfl⟩, ?_⟩
    intro fn' hfn' b a
    calc predictionError restaurantName user restaurants (regression restaurantName user
            (userReviewedRestaurants restaurantName user restaurants) fn)
        = leastError restaurantName user
            (userReviewedRestaurants restaurantName user restaurants) fn :=
          predictionError_regression (hfeatures fn hfn)
      _ ≤ leastError restaurantName user
            (userReviewedRestaurants restaurantName user restaurants) fn' :=
          leastError_le_of_explained_le (dev_self_ne_zero.mpr (hfeatures fn hfn))
            (dev_self_ne_zero.mpr (hfeatures fn' hfn')) (dev_self_ne_zero.mpr hratings)
            (hmax fn' hfn')
      _ ≤ predictionError restaurantName user restaurants (line fn' b a) :=
          le_sqError_line hratings.ne_nil (dev_self_ne_zero.mpr (hfeatures fn' hfn')) b a

/-- Restaurants that are numbers, of which two have reviews. -/
def someUser : User := makeUser "user" [⟨"0", 4⟩, ⟨"1", 2⟩]

theorem predictors_leastSquares_two :
    ∃ p, bestPredictor (fun r : ℕ => toString r) someUser [0, 1, 2] [fun r => (r : ℚ)] = .ok p ∧
      (∃ fn ∈ [fun r : ℕ => (r : ℚ)], ∃ b a, p = line fn b a) ∧
      ∀ fn ∈ [fun r : ℕ => (r : ℚ)], ∀ b a,
        predictionError (fun r : ℕ => toString r) someUser [0, 1, 2] p ≤
        predictionError (fun r : ℕ => toString r) someUser [0, 1, 2] (line fn b a) :=
  (predictors_leastSquares (List.cons_ne_nil _ _) (by
    intro fn hfn
    rw [List.mem_singleton.mp hfn]
    exact ⟨0, by decide, 1, by decide, by decide⟩) ⟨0, by decide, 1, by decide, by decide⟩).2

/-! ## All ratings -/

theorem ratings_reviewed (reviewed : List Restaurant) (ratings : Dict ℚ)
    (h : Reviewed restaurantName user reviewed) :
    ∃ ratings', reviewed.foldlM (fun ratings r => do
      let review ← getItem user.reviews (restaurantName r)
      return ratings.insert (restaurantName r) review.rating) ratings = Except.ok ratings' := by
  induction reviewed generalizing ratings with
  | nil => exact ⟨ratings, rfl⟩
  | cons r reviewed ih =>
    obtain ⟨review, hreview, _⟩ := getItem_review h List.mem_cons_self
    obtain ⟨ratings', hratings'⟩ := ih (ratings.insert (restaurantName r) review.rating)
      fun r' hr' => h r' (List.mem_cons_of_mem r hr')
    refine ⟨ratings', ?_⟩
    rw [List.foldlM_cons, hreview]
    exact hratings'

/-- Each restaurant without a rating gets one, and no rating is lost. -/
theorem mem_predictOthers (p : Predictor Restaurant) (rs : List Restaurant) : ∀ (ratings : Dict ℚ)
    (name : String), name ∈ ratings ∨ (∃ r ∈ rs, restaurantName r = name) →
    name ∈ predictOthers restaurantName p rs ratings := by
  induction rs with
  | nil =>
    intro ratings name h
    cases h with
    | inl h => exact h
    | inr h =>
      obtain ⟨r, hr, _⟩ := h
      cases hr
  | cons r rs ih =>
    intro ratings name h
    apply ih
    have hkeep : ∀ name, name ∈ ratings ∨ restaurantName r = name →
        name ∈ (if restaurantName r ∉ ratings then ratings.insert (restaurantName r) (p r)
          else ratings) := by
      intro name h
      by_cases hmem : restaurantName r ∈ ratings
      · rw [if_neg (not_not.mpr hmem)]
        cases h with
        | inl h => exact h
        | inr h => exact h ▸ hmem
      · rw [if_pos hmem, AList.mem_insert]
        cases h with
        | inl h => exact Or.inr h
        | inr h => exact Or.inl h.symm
    cases h with
    | inl h => exact Or.inl (hkeep name (Or.inl h))
    | inr h =>
      obtain ⟨r', hr', hname⟩ := h
      cases List.mem_cons.mp hr' with
      | inl heq => exact Or.inl (hkeep name (Or.inr (heq ▸ hname)))
      | inr hmem => exact Or.inr ⟨r', hmem, hname⟩

/-- Every restaurant is rated if and only if the ratings and every feature have at least two
different values on the reviewed ones of all restaurants. -/
theorem rateAll_iff (allRestaurants : List Restaurant) (hne : featureFns ≠ []) :
    (∃ ratings, rateAll restaurantName allRestaurants user restaurants featureFns = .ok ratings ∧
      ∀ r ∈ restaurants, restaurantName r ∈ ratings) ↔
    Varies (userReviewedRestaurants restaurantName user allRestaurants)
      (rating restaurantName user) ∧
    ∀ fn ∈ featureFns, Varies (userReviewedRestaurants restaurantName user allRestaurants) fn := by
  constructor
  · intro hrated
    obtain ⟨ratings, hratings, _⟩ := hrated
    cases hbest : bestPredictor restaurantName user allRestaurants featureFns with
    | error e =>
      rw [rateAll, hbest] at hratings
      cases hratings
    | ok p =>
      have hvaries := of_bestPredictor_ok hbest
      obtain ⟨fn, hfn⟩ := List.exists_mem_of_ne_nil featureFns hne
      exact ⟨(hvaries fn hfn).2, fun fn hfn => (hvaries fn hfn).1⟩
  · intro hvaries
    obtain ⟨fn, _, hbest, _⟩ := bestPredictor_ok hne hvaries.2 hvaries.1
    obtain ⟨ratings, hratings⟩ := ratings_reviewed
      (userReviewedRestaurants restaurantName user restaurants) ∅ reviewed_restaurants
    refine ⟨predictOthers restaurantName (regression restaurantName user
      (userReviewedRestaurants restaurantName user allRestaurants) fn) restaurants ratings, ?_, ?_⟩
    · rw [rateAll, hbest]
      simp only [bind, Except.bind] at hratings ⊢
      rw [hratings]
      rfl
    · intro r hr
      apply mem_predictOthers
      exact Or.inr ⟨r, hr, rfl⟩

theorem rateAll_iff_two :
    ∃ ratings, rateAll (fun r : ℕ => toString r) [0, 1, 2] someUser [2] [fun r => (r : ℚ)] =
      .ok ratings ∧ ∀ r ∈ [2], toString r ∈ ratings :=
  (rateAll_iff [0, 1, 2] (List.cons_ne_nil _ _)).mpr ⟨⟨0, by decide, 1, by decide, by decide⟩, by
    intro fn hfn
    rw [List.mem_singleton.mp hfn]
    exact ⟨0, by decide, 1, by decide, by decide⟩⟩

/-- With one reviewed restaurant no deviation is left to divide by. -/
theorem rateAll_one_review :
    ¬∃ ratings, rateAll (fun r : ℕ => toString r) [0, 2] someUser [0] [fun r => (r : ℚ)] =
      .ok ratings ∧ ∀ r ∈ [0], toString r ∈ ratings := by
  intro h
  obtain ⟨ratings, hratings, _⟩ := h
  have herror : rateAll (fun r : ℕ => toString r) [0, 2] someUser [0] [fun r => (r : ℚ)] =
      .error .zeroDivision := by decide +kernel
  rw [herror] at hratings
  cases hratings

end Best

end Courses.Maps
