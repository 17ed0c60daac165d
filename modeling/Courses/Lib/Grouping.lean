import Mathlib.Data.List.Induction
import Mathlib.Data.List.Nodup

/-!
# Tables of groups

A table holds a value for each key. Two keys are the same if `ident` says so; the table
keeps the one that came first. `collect` lets items enter the groups of their keys one after
the other, where the first item of a group makes its value and every further one changes it.
Looking a key up then gives what its own items alone would have made (`get_collect`), and
every key with an item stands in the table once.
-/
namespace Courses.Lib.Grouping

variable {K I V A : Type*} [DecidableEq I] (ident : K → I)

def get (t : List (K × V)) (k : K) : Option V :=
  (t.find? fun e => ident e.1 = ident k).map Prod.snd

def put (k : K) (v : V) : List (K × V) → List (K × V)
  | [] => [(k, v)]
  | e :: t => if ident e.1 = ident k then (e.1, v) :: t else e :: put k v t

/-- The keys of a table, up to identity. -/
def idents (t : List (K × V)) : List I := t.map fun e => ident e.1

variable {ident} {t : List (K × V)} {k k' : K} {v : V}

theorem get_congr (h : ident k' = ident k) : get ident t k' = get ident t k := by
  simp only [get, h]

theorem get_put_self (t : List (K × V)) (k : K) (v : V) :
    get ident (put ident k v t) k = some v := by
  induction t with
  | nil => simp [get, put]
  | cons e t ih =>
    rw [put]
    split
    · rename_i he
      simp [get, he]
    · rename_i he
      simpa [get, he] using ih

theorem get_put_of_ne (h : ident k' ≠ ident k) (t : List (K × V)) (v : V) :
    get ident (put ident k v t) k' = get ident t k' := by
  induction t with
  | nil => simp [get, put, h.symm]
  | cons e t ih =>
    rw [put]
    split
    · rename_i he
      have hne : ident e.1 ≠ ident k' := by
        rw [he]
        exact h.symm
      simp [get, hne]
    · by_cases he' : ident e.1 = ident k'
      · simp [get, he']
      · simpa [get, he'] using ih

/-- Putting the value that is there already changes nothing. -/
theorem put_eq_self (h : get ident t k = some v) : put ident k v t = t := by
  induction t with
  | nil => simp [get] at h
  | cons e t ih =>
    rw [put]
    split
    · rename_i he
      simp only [get, he, decide_true, List.find?_cons_of_pos, Option.map_some,
        Option.some.injEq] at h
      rw [← h]
    · rename_i he
      rw [ih (by simpa [get, he] using h)]

theorem get_eq_none_iff : get ident t k = none ↔ ident k ∉ idents ident t := by
  simp only [get, idents, Option.map_eq_none_iff, List.find?_eq_none, decide_eq_true_eq,
    List.mem_map, not_exists, not_and]

theorem idents_put (t : List (K × V)) (k : K) (v : V) : idents ident (put ident k v t) =
    if ident k ∈ idents ident t then idents ident t else idents ident t ++ [ident k] := by
  induction t with
  | nil => simp [put, idents]
  | cons e t ih =>
    rw [put]
    split
    · rename_i he
      simp [idents, he]
    · rename_i he
      have hcons (t : List (K × V)) : idents ident (e :: t) = ident e.1 :: idents ident t := rfl
      rw [hcons, hcons, ih]
      by_cases hmem : ident k ∈ idents ident t
      · simp [hmem]
      · simp [hmem, Ne.symm he]

theorem nodup_put (h : (idents ident t).Nodup) (k : K) (v : V) :
    (idents ident (put ident k v t)).Nodup := by
  rw [idents_put]
  split
  · exact h
  · rename_i hnot
    simpa using h.concat hnot

/-! ### Collecting -/

section

variable (ident) (first : A → V) (next : V → A → V)

/-- An item enters the group of the key. -/
def enter (t : List (K × V)) (k : K) (a : A) : List (K × V) :=
  match get ident t k with
  | none => put ident k (first a) t
  | some v => put ident k (next v a) t

def collect (items : List (K × A)) : List (K × V) :=
  items.foldl (fun t x => enter ident first next t x.1 x.2) []

/-- The items of a group, in the order in which they came. -/
def members (items : List (K × A)) (k : K) : List A :=
  (items.filter fun x => ident x.1 = ident k).map Prod.snd

/-- The value that the items of one group make. -/
def summary : List A → Option V
  | [] => none
  | a :: as => some (as.foldl next (first a))

end

variable {first : A → V} {next : V → A → V} {items : List (K × A)} {x : K × A}

theorem summary_concat (as : List A) (a : A) :
    summary first next (as ++ [a]) =
      some ((summary first next as).elim (first a) (next · a)) := by
  cases as with
  | nil => rfl
  | cons b as => simp [summary]

theorem collect_concat (items : List (K × A)) (x : K × A) :
    collect ident first next (items ++ [x]) =
      enter ident first next (collect ident first next items) x.1 x.2 := by
  simp [collect]

theorem members_concat_self (h : ident x.1 = ident k) (items : List (K × A)) :
    members ident (items ++ [x]) k = members ident items k ++ [x.2] := by
  simp [members, h]

theorem members_concat_of_ne (h : ident x.1 ≠ ident k) (items : List (K × A)) :
    members ident (items ++ [x]) k = members ident items k := by
  simp [members, h]

theorem get_enter_self (t : List (K × V)) (k : K) (a : A) :
    get ident (enter ident first next t k a) k =
      some ((get ident t k).elim (first a) (next · a)) := by
  rw [enter]
  split <;> rename_i h <;> rw [get_put_self, h] <;> rfl

theorem get_enter_of_ne (h : ident k' ≠ ident k) (t : List (K × V)) (a : A) :
    get ident (enter ident first next t k a) k' = get ident t k' := by
  rw [enter]
  split <;> exact get_put_of_ne h _ _

/-- The value of a group comes from its own items. -/
theorem get_collect (items : List (K × A)) (k : K) :
    get ident (collect ident first next items) k =
      summary first next (members ident items k) := by
  induction items using List.reverseRecOn with
  | nil => rfl
  | append_singleton items x ih =>
    rw [collect_concat]
    by_cases hk : ident x.1 = ident k
    · rw [members_concat_self hk, summary_concat, ← ih, get_congr hk.symm, get_enter_self,
        get_congr hk]
    · rw [members_concat_of_ne hk, ← ih, get_enter_of_ne (Ne.symm hk)]

theorem nodup_collect (items : List (K × A)) :
    (idents ident (collect ident first next items)).Nodup := by
  induction items using List.reverseRecOn with
  | nil => exact List.nodup_nil
  | append_singleton items x ih =>
    rw [collect_concat, enter]
    split <;> exact nodup_put ih _ _

theorem members_ne_nil_iff : members ident items k ≠ [] ↔ ∃ x ∈ items, ident x.1 = ident k := by
  simp [members, List.filter_eq_nil_iff]

/-- The table has exactly the keys of the items. -/
theorem mem_idents_collect : ident k ∈ idents ident (collect ident first next items) ↔
    ∃ x ∈ items, ident x.1 = ident k := by
  rw [← members_ne_nil_iff, ← not_iff_not, ← get_eq_none_iff, get_collect, not_not]
  cases members ident items k <;> simp [summary]

end Courses.Lib.Grouping
