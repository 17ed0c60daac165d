import Mathlib.Tactic

/-!
# Best-first search over trails

A search keeps a frontier of trails from its start, removes one of least
priority and puts its extensions in its place. A trail is extended by every
successor of its end except the state it has just come from. With a heuristic
that drops by at most one along a step and is 0 at a goal, the first trail to
a goal that is removed is a shortest one, and it is removed after finitely
many steps when a goal can be reached at all. States may be visited again, so
what decreases is a potential over the trails that are still short enough.
-/

namespace Courses.BestFirst

variable {α : Type*} (succ : α → List α) (h : α → ℕ) (goal : α → Prop)

/-- A trail from `start`, latest state first. -/
inductive Trail (start : α) : List α → Prop
  | start : Trail start [start]
  | step {x y p} : Trail start (x :: p) → y ∈ succ x → Trail start (y :: x :: p)

/-- The number of steps made and the estimate of those still to make. -/
def priority : List α → ℕ
  | [] => 0
  | x :: p => p.length + h x

/-- A trail that ends at a goal. -/
def Solves (start : α) (s : List α) : Prop :=
  Trail succ start s ∧ ∃ g ∈ s.head?, goal g

/-- A solution that no other one undercuts. -/
def Shortest (start : α) (s : List α) : Prop :=
  Solves succ goal start s ∧ ∀ s', Solves succ goal start s' → s.length ≤ s'.length

variable {succ h goal} {start x y : α} {p q s t : List α}

theorem Trail.ne_nil (hp : Trail succ start p) : p ≠ [] := by
  cases hp <;> simp

/-- A trail in reverse is a path from its start. -/
theorem trail_iff : Trail succ start p ↔
    p.getLast? = some start ∧ p.IsChain fun y x => y ∈ succ x := by
  constructor
  · intro hp
    induction hp with
    | start => exact ⟨rfl, .singleton _⟩
    | step _ hy ih => exact ⟨ih.1, .cons_cons hy ih.2⟩
  · rintro ⟨hlast, hchain⟩
    induction hchain with
    | nil => simp at hlast
    | singleton x =>
      obtain rfl : x = start := by simpa using hlast
      exact .start
    | cons_cons hy _ ih => exact .step (ih hlast) hy

theorem Trail.start_suffix (hp : Trail succ start p) : [start] <:+ p := by
  induction hp with
  | start => exact List.suffix_rfl
  | step _ _ ih => exact ih.trans (List.suffix_cons _ _)

theorem Trail.of_suffix (hs : Trail succ start s) (hq : q <:+ s) (hne : q ≠ []) :
    Trail succ start q := by
  induction hs with
  | start =>
    rcases List.suffix_cons_iff.mp hq with rfl | hq
    · exact .start
    · exact absurd (List.suffix_nil.mp hq) hne
  | step hp hy ih =>
    rcases List.suffix_cons_iff.mp hq with rfl | hq
    · exact .step hp hy
    · exact ih hq

/-- The last step of a trail. -/
theorem Trail.mem_succ (hp : Trail succ start (y :: x :: p)) : y ∈ succ x := by
  cases hp with
  | step _ hy => exact hy

/-- The part of a trail up to a state can be replaced by another trail there. -/
theorem Trail.splice (hs : Trail succ start (t ++ y :: p)) (hq : Trail succ start (y :: q)) :
    Trail succ start (t ++ y :: q) := by
  induction t with
  | nil => exact hq
  | cons z t ih =>
    cases t with
    | nil =>
      cases hs with
      | step hp hz => exact .step hq hz
    | cons w t =>
      cases hs with
      | step hp hz => exact .step (ih hp) hz

section Estimate

variable (hstep : ∀ x, ∀ y ∈ succ x, h x ≤ h y + 1) (hgoal : ∀ x, goal x → h x = 0)

include hstep in
/-- The priority does not drop along a trail. -/
theorem Trail.priority_le (hs : Trail succ start s) (hq : q <:+ s) (hne : q ≠ []) :
    priority h q ≤ priority h s := by
  induction hs with
  | start =>
    rcases List.suffix_cons_iff.mp hq with rfl | hq
    · exact le_rfl
    · exact absurd (List.suffix_nil.mp hq) hne
  | @step x y p hp hy ih =>
    rcases List.suffix_cons_iff.mp hq with rfl | hq
    · exact le_rfl
    · have hlast := hstep x y hy
      have hrest := ih hq
      simp only [priority, List.length_cons] at hrest ⊢
      omega

include hgoal in
theorem Solves.priority_add_one (hs : Solves succ goal start s) :
    priority h s + 1 = s.length := by
  obtain ⟨-, g, hg, hgoal'⟩ := hs
  cases s with
  | nil => simp at hg
  | cons x p =>
    obtain rfl : x = g := by simpa using hg
    simp [priority, hgoal x hgoal']

end Estimate

theorem Solves.exists_shortest (hs : Solves succ goal start s) :
    ∃ s', Shortest succ goal start s' ∧ s'.length ≤ s.length := by
  have hmin := exists_minimal_le_of_wellFoundedLT
    (fun k => ∃ s', Solves succ goal start s' ∧ s'.length = k) s.length ⟨s, hs, rfl⟩
  obtain ⟨k, hk, ⟨s', hs', hlen⟩, hleast⟩ := hmin
  refine ⟨s', ⟨hs', fun s'' hs'' => ?_⟩, hlen.trans_le hk⟩
  have hle := hleast (y := s''.length) ⟨s'', hs'', rfl⟩
  omega

variable (succ goal)

/-- The frontier holds trails only, among them a part of every shortest solution. -/
structure Frontier (start : α) (m : Multiset (List α)) : Prop where
  trail : ∀ p ∈ m, Trail succ start p
  covers : ∀ s, Shortest succ goal start s → ∃ p ∈ m, p <:+ s

variable {succ goal} {m : Multiset (List α)}

theorem frontier_start : Frontier succ goal start {[start]} where
  trail p hp := by
    rw [Multiset.mem_singleton.mp hp]
    exact .start
  covers s hs := ⟨_, Multiset.mem_singleton_self _, hs.1.1.start_suffix⟩

section Minimum

variable (hstep : ∀ x, ∀ y ∈ succ x, h x ≤ h y + 1) (hgoal : ∀ x, goal x → h x = 0)

include hstep hgoal

/-- A trail of least priority is no longer than a shortest solution. -/
theorem Frontier.length_le (hf : Frontier succ goal start m) (hp : p ≠ [])
    (hmin : ∀ q ∈ m, priority h p ≤ priority h q) (hs : Shortest succ goal start s) :
    p.length ≤ s.length := by
  obtain ⟨q, hq, hsuffix⟩ := hf.covers s hs
  have hle := hs.1.1.priority_le hstep hsuffix (hf.trail q hq).ne_nil
  have hend := hs.1.priority_add_one hgoal
  have hpq := hmin q hq
  have hlen : p.length ≤ priority h p + 1 := by
    cases p with
    | nil => exact absurd rfl hp
    | cons x p => simp [priority]
  omega

/-- A trail of least priority that ends at a goal is a shortest solution. -/
theorem Frontier.shortest (hf : Frontier succ goal start m) (hp : p ∈ m)
    (hmin : ∀ q ∈ m, priority h p ≤ priority h q) (hend : ∃ g ∈ p.head?, goal g) :
    Shortest succ goal start p := by
  have htrail := hf.trail p hp
  refine ⟨⟨htrail, hend⟩, fun s hs => ?_⟩
  obtain ⟨s', hs', hle⟩ := hs.exists_shortest
  exact (hf.length_le hstep hgoal htrail.ne_nil hmin hs').trans hle

end Minimum

variable (succ) [DecidableEq α]

/-- The trails one step longer that do not go straight back. -/
def extensions : List α → List (List α)
  | [] => []
  | x :: p => ((succ x).filter fun y => p.head? ≠ some y).map fun y => y :: x :: p

variable {succ}

theorem trail_of_mem_extensions (hp : Trail succ start p) (hq : q ∈ extensions succ p) :
    Trail succ start q := by
  cases p with
  | nil => simp [extensions] at hq
  | cons x p =>
    simp only [extensions, List.mem_map, List.mem_filter] at hq
    obtain ⟨y, ⟨hy, -⟩, rfl⟩ := hq
    exact .step hp hy

/-- A shortest solution does not go straight back, so it runs through an extension
of each of its parts. -/
theorem Shortest.exists_extension (hs : Shortest succ goal start s) (hq : q <:+ s)
    (hne : q ≠ []) (hqs : q ≠ s) : ∃ c ∈ extensions succ q, c <:+ s := by
  obtain ⟨t, rfl⟩ := hq
  obtain ⟨t, y, rfl⟩ : ∃ t' y, t = t' ++ [y] := by
    obtain rfl | ⟨t', y, rfl⟩ := List.eq_nil_or_concat t
    · exact absurd rfl hqs
    · exact ⟨t', y, by simp⟩
  obtain ⟨x, p, rfl⟩ := List.exists_cons_of_ne_nil hne
  have hc : y :: x :: p <:+ t ++ [y] ++ x :: p := ⟨t, by simp⟩
  have hy : y ∈ succ x := (hs.1.1.of_suffix hc (by simp)).mem_succ
  refine ⟨y :: x :: p, ?_, hc⟩
  simp only [extensions, List.mem_map, List.mem_filter]
  refine ⟨y, ⟨hy, decide_eq_true fun hback => ?_⟩, rfl⟩
  obtain ⟨p', rfl⟩ : ∃ p', p = y :: p' := by
    cases p with
    | nil => simp at hback
    | cons z p' => exact ⟨p', by simpa using hback⟩
  have htrail : Trail succ start (t ++ y :: x :: y :: p') := by simpa using hs.1.1
  have hshort : Trail succ start (t ++ y :: p') :=
    htrail.splice (htrail.of_suffix ⟨t ++ [y, x], by simp⟩ (by simp))
  have hhead : (t ++ y :: p').head? = (t ++ [y] ++ x :: y :: p').head? := by
    cases t <;> rfl
  have hle := hs.2 _ ⟨hshort, hhead ▸ hs.1.2⟩
  simp at hle

/-- The frontier after a trail that ends at no goal was removed. -/
theorem Frontier.extend (hf : Frontier succ goal start (p ::ₘ m))
    (hp : ∀ g ∈ p.head?, ¬goal g) :
    Frontier succ goal start (m + extensions succ p) where
  trail q hq := by
    have htrail := hf.trail p (Multiset.mem_cons_self p m)
    rcases Multiset.mem_add.mp hq with hq | hq
    · exact hf.trail q (Multiset.mem_cons_of_mem hq)
    · exact trail_of_mem_extensions htrail hq
  covers s hs := by
    obtain ⟨q, hq, hsuffix⟩ := hf.covers s hs
    rcases Multiset.mem_cons.mp hq with rfl | hq
    · have hne := (hf.trail q (Multiset.mem_cons_self q m)).ne_nil
      have hqs : q ≠ s := by
        rintro rfl
        obtain ⟨g, hg, hgoal⟩ := hs.1.2
        exact hp g hg hgoal
      obtain ⟨c, hc, hcs⟩ := hs.exists_extension hsuffix hne hqs
      exact ⟨c, Multiset.mem_add.mpr (Or.inr hc), hcs⟩
    · exact ⟨q, Multiset.mem_add.mpr (Or.inl hq), hsuffix⟩

/-- The share of a trail in the potential: trails longer than `l` have none. -/
def weight (d l : ℕ) (p : List α) : ℕ := if p.length ≤ l then (d + 1) ^ (l + 1 - p.length) else 0

/-- The extensions of a trail weigh less than the trail. -/
theorem sum_weight_extensions_lt {d l : ℕ} (hd : ∀ x, (succ x).length ≤ d)
    (hp : p.length ≤ l) : ((extensions succ p).map (weight d l)).sum < weight d l p := by
  have hpos : 0 < (d + 1) ^ (l - p.length) := pow_pos d.succ_pos _
  have hself : weight d l p = (d + 1) * (d + 1) ^ (l - p.length) := by
    rw [weight, if_pos hp, ← pow_succ', Nat.succ_sub hp]
  have hchild : ∀ c ∈ extensions succ p, weight d l c ≤ (d + 1) ^ (l - p.length) := by
    intro c hc
    have hlen : c.length = p.length + 1 := by
      cases p with
      | nil => simp [extensions] at hc
      | cons x p =>
        simp only [extensions, List.mem_map] at hc
        obtain ⟨y, -, rfl⟩ := hc
        rfl
    unfold weight
    split
    · rw [hlen, Nat.add_sub_add_right]
    · exact hpos.le
  have hcount : (extensions succ p).length ≤ d := by
    cases p with
    | nil => simp [extensions]
    | cons x p =>
      rw [extensions, List.length_map]
      exact (List.length_filter_le _ _).trans (hd x)
  calc ((extensions succ p).map (weight d l)).sum
      ≤ (extensions succ p).length * (d + 1) ^ (l - p.length) := by
        have hsum := List.sum_le_card_nsmul ((extensions succ p).map (weight d l))
          ((d + 1) ^ (l - p.length)) (by simpa using hchild)
        simpa using hsum
    _ ≤ d * (d + 1) ^ (l - p.length) := Nat.mul_le_mul_right _ hcount
    _ < weight d l p := by
        rw [hself]
        exact Nat.mul_lt_mul_of_pos_right d.lt_succ_self hpos

/-- The potential of a frontier. -/
def potential (d l : ℕ) (m : Multiset (List α)) : ℕ := (m.map (weight d l)).sum

theorem potential_extend_lt {d l : ℕ} (hd : ∀ x, (succ x).length ≤ d) (hp : p.length ≤ l) :
    potential d l (m + (extensions succ p : Multiset (List α))) < potential d l (p ::ₘ m) := by
  have hlt := sum_weight_extensions_lt hd hp
  simp only [potential, Multiset.map_add, Multiset.sum_add, Multiset.map_coe, Multiset.sum_coe,
    Multiset.map_cons, Multiset.sum_cons]
  omega

end Courses.BestFirst
