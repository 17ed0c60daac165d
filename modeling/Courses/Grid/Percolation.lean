import Courses.Lib.Components
import Courses.Lib.Numbers
import Mathlib.Data.Finset.Card
import Mathlib.Data.Finset.Prod
import Mathlib.Data.Int.Interval
import Mathlib.Logic.Relation
import Mathlib.Order.Interval.Finset.Defs
import Mathlib.Tactic.Linarith

/-!
# The percolation model

`Percolation` keeps which sites of a square grid are open, and two union-find structures
over the sites. Both have an element for the top; only the first has one for the bottom.
The union-find class itself is not part of the program: it is a structure of operations,
which give nothing where they throw.
-/
namespace Courses.Grid

open Courses.Lib

/-- `WeightedQuickUnionUF` -/
structure UnionFind where
  UF : Type
  new : ℤ → Option UF
  union : UF → ℤ → ℤ → Option UF
  connected : UF → ℤ → ℤ → Option Bool

/-- What the program relies on: on elements in range no operation throws, and two elements are
connected if the unions so far join them. `Joined uf n E` says that `uf` has `n` elements and the
unions `E`. -/
structure UnionFind.Lawful (U : UnionFind) where
  Joined : U.UF → ℤ → List (ℤ × ℤ) → Prop
  new_ok {n : ℤ} : 0 ≤ n → ∃ uf, U.new n = some uf ∧ Joined uf n []
  union_ok {uf : U.UF} {n : ℤ} {E : List (ℤ × ℤ)} {p q : ℤ} : Joined uf n E →
    0 ≤ p → p < n → 0 ≤ q → q < n →
    ∃ uf', U.union uf p q = some uf' ∧ Joined uf' n (E ++ [(p, q)])
  connected_ok {uf : U.UF} {n : ℤ} {E : List (ℤ × ℤ)} {p q : ℤ} : Joined uf n E →
    0 ≤ p → p < n → 0 ≤ q → q < n →
    ∃ b, U.connected uf p q = some b ∧ (b = true ↔ Connected E p q)

variable (U : UnionFind)

/-- The array is asked only with indices that have been checked. -/
structure Percolation where
  size : ℤ
  arr : ℤ → ℤ → Bool
  openSites : ℤ
  uf : U.UF
  ufFull : U.UF
  top : ℤ
  bottom : ℤ

namespace Percolation

def new (N : ℤ) : Option (Percolation U) :=
  if N ≤ 0 then none
  else do
    let uf ← U.new (int32 (int32 (N * N) + 2))
    let ufFull ← U.new (int32 (int32 (N * N) + 1))
    return {
      size := N
      arr := fun _ _ => false
      openSites := 0
      uf := uf
      ufFull := ufFull
      top := int32 (N * N)
      bottom := int32 (int32 (N * N) + 1) }

variable {U} (p : Percolation U)

def getIndex (i j : ℤ) : ℤ := int32 (int32 ((i - 1) * p.size) + (j - 1))

def isOpen (i j : ℤ) : Option Bool :=
  if i < 1 ∨ p.size < i ∨ j < 1 ∨ p.size < j then none else some (p.arr (i - 1) (j - 1))

/-- `uf.union` -/
def unionUf (a b : ℤ) : Option (Percolation U) := do
  return { p with uf := ← U.union p.uf a b }

/-- `ufFull.union` -/
def unionUfFull (a b : ℤ) : Option (Percolation U) := do
  return { p with ufFull := ← U.union p.ufFull a b }

def tryUnion (curX curY neiX neiY : ℤ) : Option (Percolation U) := do
  if 0 < neiX ∧ neiX ≤ p.size ∧ 0 < neiY ∧ neiY ≤ p.size then
    if ← p.isOpen neiX neiY then
      let p ← p.unionUf (p.getIndex curX curY) (p.getIndex neiX neiY)
      p.unionUfFull (p.getIndex curX curY) (p.getIndex neiX neiY)
    else
      return p
  else
    return p

/-- The union of a new open site with the top. -/
def unionTop (i index : ℤ) : Option (Percolation U) :=
  if i = 1 then do
    let p ← p.unionUf index p.top
    p.unionUfFull index p.top
  else some p

/-- The union of a new open site with the bottom. -/
def unionBottom (i index : ℤ) : Option (Percolation U) :=
  if i = p.size then p.unionUf index p.bottom else some p

/-- The unions of a new open site. -/
def unionAll (i j : ℤ) : Option (Percolation U) := do
  let index := p.getIndex i j
  let p ← p.unionTop i index
  let p ← p.unionBottom i index
  let p ← p.tryUnion i j (i - 1) j
  let p ← p.tryUnion i j (i + 1) j
  let p ← p.tryUnion i j i (j - 1)
  p.tryUnion i j i (j + 1)

/-- The new open site in the array. -/
def setOpen (i j : ℤ) : Percolation U :=
  { p with
    arr := fun x y => if x = i - 1 ∧ y = j - 1 then true else p.arr x y
    openSites := int32 (p.openSites + 1) }

/-- `open` -/
def openSite (i j : ℤ) : Option (Percolation U) :=
  if i < 1 ∨ p.size < i ∨ j < 1 ∨ p.size < j then none
  else do if ← p.isOpen i j then return p else (p.setOpen i j).unionAll i j

def isFull (i j : ℤ) : Option Bool :=
  if i < 1 ∨ p.size < i ∨ j < 1 ∨ p.size < j then none
  else do
    if ← p.isOpen i j then U.connected p.ufFull (p.getIndex i j) p.top else return false

def percolates : Option Bool := U.connected p.uf p.top p.bottom

def numberOfOpenSites : ℤ := p.openSites

/-- The sites of a list are opened one after the other. -/
def openAll (p : Percolation U) (sites : List (ℤ × ℤ)) : Option (Percolation U) :=
  sites.foldlM (fun p s => p.openSite s.1 s.2) p

end Percolation

end Courses.Grid

/-!
# Percolation is reachability

The edges that the unions make are those between adjacent open sites and those from open
sites at the ends of the grid to the virtual sites (`Wired`). So an open site is joined to
the top exactly if there is a path, as long as no edge leads through the bottom.
-/
namespace Courses.Grid

open Courses.Lib Relation

/-! ## Paths on the grid -/

abbrev Site := ℤ × ℤ

def InRange (N : ℤ) (s : Site) : Prop := 1 ≤ s.1 ∧ s.1 ≤ N ∧ 1 ≤ s.2 ∧ s.2 ≤ N

instance (N : ℤ) (s : Site) : Decidable (InRange N s) :=
  inferInstanceAs (Decidable (1 ≤ s.1 ∧ s.1 ≤ N ∧ 1 ≤ s.2 ∧ s.2 ≤ N))

/-- One step left, right, up or down. -/
def Adjacent (s t : Site) : Prop :=
  s.1 = t.1 ∧ (s.2 = t.2 + 1 ∨ t.2 = s.2 + 1) ∨ s.2 = t.2 ∧ (s.1 = t.1 + 1 ∨ t.1 = s.1 + 1)

/-- A path of adjacent sites in a set. -/
def Path (O : Set Site) (s t : Site) : Prop :=
  s ∈ O ∧ ReflTransGen (fun a b => b ∈ O ∧ Adjacent a b) s t

/-- A path leads to the top row. -/
def Full (O : Set Site) (s : Site) : Prop := ∃ t, t.1 = 1 ∧ Path O s t

/-- A path joins the top and the bottom row. -/
def Percolates (N : ℤ) (O : Set Site) : Prop := ∃ s t, s.1 = 1 ∧ t.1 = N ∧ Path O s t

variable {N : ℤ} {O : Set Site} {s t u : Site}

theorem Adjacent.symm (h : Adjacent s t) : Adjacent t s := by
  simp only [Adjacent] at *
  omega

theorem Path.mem_right (h : Path O s t) : t ∈ O := by
  obtain ⟨hs, hpath⟩ := h
  cases hpath with
  | refl => exact hs
  | tail _ hstep => exact hstep.1

theorem Path.symm (h : Path O s t) : Path O t s := by
  refine ⟨h.mem_right, ?_⟩
  obtain ⟨hs, hpath⟩ := h
  induction hpath with
  | refl => exact .refl
  | @tail a b hpath hstep ih =>
    have ha : a ∈ O := Path.mem_right ⟨hs, hpath⟩
    exact (ReflTransGen.single ⟨ha, hstep.2.symm⟩).trans ih

theorem percolates_iff : Percolates N O ↔ ∃ s, s.1 = N ∧ Full O s := by
  constructor
  · intro ⟨s, t, hs, ht, hpath⟩
    exact ⟨t, ht, s, hs, hpath.symm⟩
  · intro ⟨s, hs, t, ht, hpath⟩
    exact ⟨t, s, ht, hs, hpath.symm⟩

/-- Being full goes from a site to its open neighbours. -/
theorem Full.step (h : Full O t) (hs : s ∈ O) (hadj : Adjacent s t) : Full O s := by
  obtain ⟨u, hu, ht, hpath⟩ := h
  exact ⟨u, hu, hs, .head ⟨ht, hadj⟩ hpath⟩

/-! ## Sites as elements -/

def index (N : ℤ) (s : Site) : ℤ := (s.1 - 1) * N + (s.2 - 1)

theorem index_nonneg (h : InRange N s) : 0 ≤ index N s := by
  obtain ⟨hi, hiN, hj, hjN⟩ := h
  have hrow : 0 ≤ (s.1 - 1) * N := Int.mul_nonneg (by omega) (by omega)
  rw [index]
  omega

theorem index_lt (h : InRange N s) : index N s < N * N := by
  obtain ⟨hi, hiN, hj, hjN⟩ := h
  have hrow : (s.1 - 1) * N ≤ (N - 1) * N := Int.mul_le_mul_of_nonneg_right (by omega) (by omega)
  have hN : (N - 1) * N = N * N - N := by ring
  rw [index]
  omega

theorem index_inj (hs : InRange N s) (ht : InRange N t) (h : index N s = index N t) : s = t := by
  obtain ⟨hi, hiN, hj, hjN⟩ := hs
  obtain ⟨hi', hiN', hj', hjN'⟩ := ht
  have hrow (u : Site) (hu : 1 ≤ u.2) (huN : u.2 ≤ N) : index N u / N = u.1 - 1 := by
    rw [index, Int.add_comm, Int.add_mul_ediv_right _ _ (by omega),
      Int.ediv_eq_zero_of_lt (by omega) (by omega), Int.zero_add]
  have hfst : s.1 = t.1 := by
    have hs := hrow s hj hjN
    have ht := hrow t hj' hjN'
    rw [h] at hs
    omega
  have hsnd : s.2 = t.2 := by
    simp only [index, hfst] at h
    omega
  exact Prod.ext hfst hsnd

/-! ## The edges of the unions -/

/-- The edges between open sites, and from open sites to the virtual ones. -/
inductive Link (N : ℤ) (O : Set Site) (withBottom : Prop) : ℤ → ℤ → Prop
  | sites {s t : Site} : s ∈ O → t ∈ O → Adjacent s t →
      Link N O withBottom (index N s) (index N t)
  | top {s : Site} : s ∈ O → s.1 = 1 → Link N O withBottom (index N s) (N * N)
  | bottom {s : Site} : withBottom → s ∈ O → s.1 = N →
      Link N O withBottom (index N s) (N * N + 1)

/-- A list of edges is exactly these, in one of the directions. -/
structure Wired (N : ℤ) (O : Set Site) (withBottom : Prop) (E : List (ℤ × ℤ)) : Prop where
  sound : ∀ {a b}, (a, b) ∈ E → Link N O withBottom a b
  complete : ∀ {a b}, Link N O withBottom a b → (a, b) ∈ E ∨ (b, a) ∈ E

variable {withBottom : Prop} {E : List (ℤ × ℤ)}

namespace Wired

theorem nil : Wired N ∅ withBottom [] where
  sound h := by simp at h
  complete h := by cases h <;> simp_all

theorem connected (h : Wired N O withBottom E) {a b : ℤ} (hab : Link N O withBottom a b) :
    Connected E a b := by
  obtain hmem | hmem := h.complete hab
  · exact .of_mem hmem
  · exact (Connected.of_mem hmem).symm

theorem connected_of_full (h : Wired N O withBottom E) (hs : Full O s) :
    Connected E (index N s) (N * N) := by
  obtain ⟨t, ht, hmem, hpath⟩ := hs
  induction hpath using ReflTransGen.head_induction_on with
  | refl => exact h.connected (.top hmem ht)
  | head hstep _ ih => exact (h.connected (.sites hmem hstep.1 hstep.2)).trans (ih hstep.1)

/-- Unless there is a way through the bottom, only full sites are joined to the top. -/
theorem full_of_connected (h : Wired N O withBottom E) (hO : ∀ s ∈ O, InRange N s)
    (hno : withBottom → ¬ Percolates N O) {x : ℤ} (hx : Connected E x (N * N)) :
    x = N * N ∨ ∃ s ∈ O, Full O s ∧ index N s = x := by
  have hclosed : ∀ a b, (a, b) ∈ E →
      (a ∈ {x | x = N * N ∨ ∃ s ∈ O, Full O s ∧ index N s = x} ↔
        b ∈ {x | x = N * N ∨ ∃ s ∈ O, Full O s ∧ index N s = x}) := by
    have hsite {s : Site} (hs : s ∈ O) : (index N s = N * N ∨
        ∃ t ∈ O, Full O t ∧ index N t = index N s) ↔ Full O s := by
      have hlt := index_lt (hO s hs)
      constructor
      · rintro (heq | ⟨t, ht, hfull, heq⟩)
        · omega
        · rwa [← index_inj (hO t ht) (hO s hs) heq]
      · intro hfull
        exact .inr ⟨s, hs, hfull, rfl⟩
    intro a b hab
    simp only [Set.mem_ofPred_eq]
    cases h.sound hab with
    | @sites s t hs ht hadj =>
      rw [hsite hs, hsite ht]
      exact ⟨fun hfull => hfull.step ht hadj.symm, fun hfull => hfull.step hs hadj⟩
    | @top s hs hrow =>
      rw [hsite hs]
      exact ⟨fun _ => .inl rfl, fun _ => ⟨s, hrow, hs, .refl⟩⟩
    | @bottom s hbottom hs hrow =>
      rw [hsite hs]
      constructor
      · intro hfull
        exact absurd (percolates_iff.2 ⟨s, hrow, hfull⟩) (hno hbottom)
      · rintro (heq | ⟨t, ht, -, heq⟩)
        · omega
        · have hlt := index_lt (hO t ht)
          omega
  exact (hx.mem_iff hclosed).2 (.inl rfl)

theorem full_iff (h : Wired N O False E) (hO : ∀ s ∈ O, InRange N s) (hs : s ∈ O) :
    Connected E (index N s) (N * N) ↔ Full O s := by
  constructor
  · intro hconn
    obtain heq | ⟨t, ht, hfull, heq⟩ := h.full_of_connected hO (by simp) hconn
    · have hlt := index_lt (hO s hs)
      omega
    · rwa [← index_inj (hO t ht) (hO s hs) heq]
  · exact h.connected_of_full

theorem percolates_iff (h : Wired N O True E) (hO : ∀ s ∈ O, InRange N s) :
    Connected E (N * N) (N * N + 1) ↔ Percolates N O := by
  constructor
  · intro hconn
    by_contra hno
    obtain heq | ⟨t, ht, -, heq⟩ := h.full_of_connected hO (fun _ => hno) hconn.symm
    · omega
    · have hlt := index_lt (hO t ht)
      omega
  · intro hperc
    obtain ⟨s, hs, hfull⟩ := Grid.percolates_iff.1 hperc
    have hmem : s ∈ O := hfull.choose_spec.2.1
    exact (h.connected_of_full hfull).symm.trans (h.connected (.bottom trivial hmem hs))

/-- A new site with edges to its ends and its open neighbours. -/
theorem insert (h : Wired N O withBottom E) {L : List (ℤ × ℤ)}
    (hsound : ∀ {a b}, (a, b) ∈ L → Link N (insert s O) withBottom a b)
    (hsites : ∀ t ∈ O, Adjacent s t → (index N s, index N t) ∈ L)
    (htop : s.1 = 1 → (index N s, N * N) ∈ L)
    (hbottom : withBottom → s.1 = N → (index N s, N * N + 1) ∈ L) :
    Wired N (insert s O) withBottom (E ++ L) := by
  have hold {a b : ℤ} (hab : Link N O withBottom a b) : (a, b) ∈ E ++ L ∨ (b, a) ∈ E ++ L :=
    (h.complete hab).imp (List.mem_append_left L) (List.mem_append_left L)
  constructor
  · intro a b hab
    obtain hab | hab := List.mem_append.1 hab
    · cases h.sound hab with
      | sites hs ht hadj => exact .sites (.inr hs) (.inr ht) hadj
      | top hs hrow => exact .top (.inr hs) hrow
      | bottom hb hs hrow => exact .bottom hb (.inr hs) hrow
    · exact hsound hab
  · intro a b hab
    cases hab with
    | sites hx hy hadj =>
      obtain rfl | hx := hx
      · obtain rfl | hy := hy
        · simp [Adjacent] at hadj
        · exact .inl (List.mem_append_right E (hsites _ hy hadj))
      · obtain rfl | hy := hy
        · exact .inr (List.mem_append_right E (hsites _ hx hadj.symm))
        · exact hold (.sites hx hy hadj)
    | top hx hrow =>
      obtain rfl | hx := hx
      · exact .inl (List.mem_append_right E (htop hrow))
      · exact hold (.top hx hrow)
    | bottom hb hx hrow =>
      obtain rfl | hx := hx
      · exact .inl (List.mem_append_right E (hbottom hb hrow))
      · exact hold (.bottom hb hx hrow)

end Wired

end Courses.Grid

/-!
# Runs of openings

After any openings the array holds the open sites, and the two union-find structures are
wired as the open sites ask (`Holds`). One opening keeps this, so any run does.
-/
namespace Courses.Grid

open Courses.Lib

variable {U : UnionFind} (S : U.Lawful) {N : ℤ} {p : Percolation U} {E F : List (ℤ × ℤ)}
  {s t : Site}

/-- The edge of a `tryUnion`. -/
def neighbourEdges (N : ℤ) (arr : ℤ → ℤ → Bool) (s t : Site) : List (ℤ × ℤ) :=
  if InRange N t ∧ arr (t.1 - 1) (t.2 - 1) = true then [(index N s, index N t)] else []

def topEdges (N : ℤ) (s : Site) : List (ℤ × ℤ) :=
  if s.1 = 1 then [(index N s, N * N)] else []

def bottomEdges (N : ℤ) (s : Site) : List (ℤ × ℤ) :=
  if s.1 = N then [(index N s, N * N + 1)] else []

/-- The fields of the object, with the unions of the two structures. -/
structure Fields (N : ℤ) (arr : ℤ → ℤ → Bool) (openSites : ℤ) (E F : List (ℤ × ℤ))
    (p : Percolation U) : Prop where
  size : p.size = N
  top : p.top = N * N
  bottom : p.bottom = N * N + 1
  arr_eq : p.arr = arr
  openSites_eq : p.openSites = openSites
  uf : S.Joined p.uf (N * N + 2) E
  ufFull : S.Joined p.ufFull (N * N + 1) F

variable {arr : ℤ → ℤ → Bool} {openSites : ℤ}

namespace Fields

theorem unionUf (h : Fields S N arr openSites E F p) {a b : ℤ} (ha : 0 ≤ a) (haN : a ≤ N * N + 1)
    (hb : 0 ≤ b) (hbN : b ≤ N * N + 1) :
    ∃ p', p.unionUf a b = some p' ∧ Fields S N arr openSites (E ++ [(a, b)]) F p' := by
  obtain ⟨uf, hunion, hjoined⟩ := S.union_ok h.uf ha (by omega) hb (by omega)
  exact ⟨{ p with uf := uf }, by simp [Percolation.unionUf, hunion],
    { h with uf := hjoined }⟩

theorem unionUfFull (h : Fields S N arr openSites E F p) {a b : ℤ} (ha : 0 ≤ a)
    (haN : a ≤ N * N) (hb : 0 ≤ b) (hbN : b ≤ N * N) :
    ∃ p', p.unionUfFull a b = some p' ∧ Fields S N arr openSites E (F ++ [(a, b)]) p' := by
  obtain ⟨uf, hunion, hjoined⟩ := S.union_ok h.ufFull ha (by omega) hb (by omega)
  exact ⟨{ p with ufFull := uf }, by simp [Percolation.unionUfFull, hunion],
    { h with ufFull := hjoined }⟩

variable {S}

theorem getIndex (h : Fields S N arr openSites E F p) (hN : N * N + 2 < 2 ^ 31)
    (hs : InRange N s) : p.getIndex s.1 s.2 = index N s := by
  have hnonneg := index_nonneg hs
  have hlt := index_lt hs
  obtain ⟨hi, hiN, hj, hjN⟩ := hs
  have hrow : 0 ≤ (s.1 - 1) * N := Int.mul_nonneg (by omega) (by omega)
  rw [index] at *
  rw [Percolation.getIndex, h.size, int32_eq (n := (s.1 - 1) * N) (by omega) (by omega),
    int32_eq (by omega) (by omega)]

theorem isOpen (h : Fields S N arr openSites E F p) (hs : InRange N s) :
    p.isOpen s.1 s.2 = some (arr (s.1 - 1) (s.2 - 1)) := by
  obtain ⟨hi, hiN, hj, hjN⟩ := hs
  rw [Percolation.isOpen, h.size, if_neg (by omega), h.arr_eq]

theorem tryUnion (h : Fields S N arr openSites E F p) (hN : N * N + 2 < 2 ^ 31)
    (hs : InRange N s) (t : Site) :
    ∃ p', p.tryUnion s.1 s.2 t.1 t.2 = some p' ∧
      Fields S N arr openSites (E ++ neighbourEdges N arr s t) (F ++ neighbourEdges N arr s t)
        p' := by
  have hrange : (0 < t.1 ∧ t.1 ≤ p.size ∧ 0 < t.2 ∧ t.2 ≤ p.size) ↔ InRange N t := by
    rw [h.size, InRange]
    omega
  by_cases ht : InRange N t
  · have hopen := h.isOpen ht
    cases harr : arr (t.1 - 1) (t.2 - 1) with
    | false =>
      refine ⟨p, ?_, ?_⟩
      · simp [Percolation.tryUnion, hrange, ht, hopen, harr]
      · simpa [neighbourEdges, harr] using h
    | true =>
      have hnonneg := index_nonneg hs
      have hlt := index_lt hs
      have hnonneg' := index_nonneg ht
      have hlt' := index_lt ht
      obtain ⟨p₁, hunion, h₁⟩ := h.unionUf S hnonneg (by omega) hnonneg' (by omega)
      obtain ⟨p₂, hunion', h₂⟩ := h₁.unionUfFull S hnonneg (by omega) hnonneg' (by omega)
      refine ⟨p₂, ?_, by simpa [neighbourEdges, ht, harr] using h₂⟩
      simp [Percolation.tryUnion, hrange, ht, hopen, harr, h.getIndex hN hs, h.getIndex hN ht,
        hunion, h₁.getIndex hN hs, h₁.getIndex hN ht, hunion']
  · refine ⟨p, ?_, ?_⟩
    · simp [Percolation.tryUnion, hrange, ht]
    · simpa [neighbourEdges, ht] using h

theorem unionTop (h : Fields S N arr openSites E F p) (hs : InRange N s) :
    ∃ p', p.unionTop s.1 (index N s) = some p' ∧
      Fields S N arr openSites (E ++ topEdges N s) (F ++ topEdges N s) p' := by
  have hnonneg := index_nonneg hs
  have hlt := index_lt hs
  by_cases hrow : s.1 = 1
  · have htop : 0 ≤ N * N := by omega
    obtain ⟨p₁, hunion, h₁⟩ := h.unionUf S hnonneg (by omega) htop (by omega)
    obtain ⟨p₂, hunion', h₂⟩ := h₁.unionUfFull S hnonneg (by omega) htop (by omega)
    refine ⟨p₂, ?_, by simpa [topEdges, hrow] using h₂⟩
    simp [Percolation.unionTop, hrow, h.top, hunion, h₁.top, hunion']
  · exact ⟨p, by simp [Percolation.unionTop, hrow], by simpa [topEdges, hrow] using h⟩

theorem unionBottom (h : Fields S N arr openSites E F p) (hs : InRange N s) :
    ∃ p', p.unionBottom s.1 (index N s) = some p' ∧
      Fields S N arr openSites (E ++ bottomEdges N s) F p' := by
  have hnonneg := index_nonneg hs
  have hlt := index_lt hs
  by_cases hrow : s.1 = N
  · have hbottom : 0 ≤ N * N + 1 := by omega
    obtain ⟨p₁, hunion, h₁⟩ := h.unionUf S hnonneg (by omega) hbottom (by omega)
    refine ⟨p₁, ?_, by simpa [bottomEdges, hrow] using h₁⟩
    simp [Percolation.unionBottom, hrow, h.size, h.bottom, hunion]
  · refine ⟨p, ?_, by simpa [bottomEdges, hrow] using h⟩
    simp [Percolation.unionBottom, hrow, h.size]

/-- The edges between a new open site and its open neighbours. -/
def allNeighbourEdges (N : ℤ) (arr : ℤ → ℤ → Bool) (s : Site) : List (ℤ × ℤ) :=
  neighbourEdges N arr s (s.1 - 1, s.2) ++ neighbourEdges N arr s (s.1 + 1, s.2) ++
    neighbourEdges N arr s (s.1, s.2 - 1) ++ neighbourEdges N arr s (s.1, s.2 + 1)

theorem unionAll (h : Fields S N arr openSites E F p) (hN : N * N + 2 < 2 ^ 31)
    (hs : InRange N s) :
    ∃ p', p.unionAll s.1 s.2 = some p' ∧ Fields S N arr openSites
      (E ++ (topEdges N s ++ bottomEdges N s ++ allNeighbourEdges N arr s))
      (F ++ (topEdges N s ++ allNeighbourEdges N arr s)) p' := by
  obtain ⟨p₁, hstep₁, h₁⟩ := h.unionTop hs
  obtain ⟨p₂, hstep₂, h₂⟩ := h₁.unionBottom hs
  obtain ⟨p₃, hstep₃, h₃⟩ := h₂.tryUnion hN hs (s.1 - 1, s.2)
  obtain ⟨p₄, hstep₄, h₄⟩ := h₃.tryUnion hN hs (s.1 + 1, s.2)
  obtain ⟨p₅, hstep₅, h₅⟩ := h₄.tryUnion hN hs (s.1, s.2 - 1)
  obtain ⟨p₆, hstep₆, h₆⟩ := h₅.tryUnion hN hs (s.1, s.2 + 1)
  refine ⟨p₆, ?_, by simpa [allNeighbourEdges] using h₆⟩
  simp only at hstep₃ hstep₄ hstep₅ hstep₆
  simp [Percolation.unionAll, h.getIndex hN hs, hstep₁, hstep₂, hstep₃, hstep₄, hstep₅, hstep₆]

end Fields

/-! ## What one opening keeps -/

/-- The state after the sites of `O` have been opened. -/
structure Holds (N : ℤ) (O : Finset Site) (p : Percolation U) : Prop where
  inRange : ∀ s ∈ O, InRange N s
  fields : ∃ arr E F, Fields S N arr O.card E F p ∧ Wired N O True E ∧ Wired N O False F ∧
    ∀ s, InRange N s → (arr (s.1 - 1) (s.2 - 1) = true ↔ s ∈ O)

theorem mem_neighbourEdges {s t : Site} {a b : ℤ} : (a, b) ∈ neighbourEdges N arr s t ↔
    (InRange N t ∧ arr (t.1 - 1) (t.2 - 1) = true) ∧ a = index N s ∧ b = index N t := by
  rw [neighbourEdges]
  split
  · rename_i ht
    simp [ht]
  · rename_i ht
    simp [ht]

theorem exists_of_mem_allNeighbourEdges {a b : ℤ} (h : (a, b) ∈ Fields.allNeighbourEdges N arr s) :
    ∃ t, Adjacent s t ∧ (InRange N t ∧ arr (t.1 - 1) (t.2 - 1) = true) ∧
      a = index N s ∧ b = index N t := by
  simp only [Fields.allNeighbourEdges, List.mem_append, mem_neighbourEdges] at h
  obtain ((h | h) | h) | h := h
  all_goals exact ⟨_, by simp [Adjacent], h⟩

theorem mem_allNeighbourEdges {t : Site} (hadj : Adjacent s t) (ht : InRange N t)
    (hopen : arr (t.1 - 1) (t.2 - 1) = true) :
    (index N s, index N t) ∈ Fields.allNeighbourEdges N arr s := by
  have hmem : (index N s, index N t) ∈ neighbourEdges N arr s t :=
    mem_neighbourEdges.2 ⟨⟨ht, hopen⟩, rfl, rfl⟩
  have hcases : t = (s.1 - 1, s.2) ∨ t = (s.1 + 1, s.2) ∨ t = (s.1, s.2 - 1) ∨
      t = (s.1, s.2 + 1) := by
    simp only [Adjacent, Prod.ext_iff] at *
    omega
  simp only [Fields.allNeighbourEdges, List.mem_append]
  obtain rfl | rfl | rfl | rfl := hcases <;> simp [hmem]

/-- The edges of a new open site, with or without the bottom. -/
theorem wired_insert {O : Finset Site} {withBottom : Prop} {E L : List (ℤ × ℤ)}
    (h : Wired N O withBottom E) (hO : ∀ t ∈ O, InRange N t)
    (harr : ∀ t, InRange N t → (arr (t.1 - 1) (t.2 - 1) = true ↔ t ∈ insert s O))
    (hL : ∀ x, x ∈ L ↔ x ∈ topEdges N s ∨ (withBottom ∧ x ∈ bottomEdges N s) ∨
      x ∈ Fields.allNeighbourEdges N arr s) :
    Wired N (insert s O : Finset Site) withBottom (E ++ L) := by
  rw [Finset.coe_insert]
  refine h.insert ?_ ?_ ?_ ?_
  · intro a b hab
    obtain htop | ⟨hb, hbottom⟩ | hsites := (hL _).1 hab
    · rw [topEdges] at htop
      split at htop
      · rename_i hrow
        obtain ⟨rfl, rfl⟩ : a = index N s ∧ b = N * N := by simpa using htop
        exact .top (.inl rfl) hrow
      · simp at htop
    · rw [bottomEdges] at hbottom
      split at hbottom
      · rename_i hrow
        obtain ⟨rfl, rfl⟩ : a = index N s ∧ b = N * N + 1 := by simpa using hbottom
        exact .bottom hb (.inl rfl) hrow
      · simp at hbottom
    · obtain ⟨t, hadj, ⟨ht, hopen⟩, rfl, rfl⟩ := exists_of_mem_allNeighbourEdges hsites
      have hmem : t ∈ insert s O := (harr t ht).1 hopen
      exact .sites (.inl rfl) (by simpa using hmem) hadj
  · intro t ht hadj
    have hopen := (harr t (hO t ht)).2 (Finset.mem_insert_of_mem ht)
    exact (hL _).2 (.inr (.inr (mem_allNeighbourEdges hadj (hO t ht) hopen)))
  · intro hrow
    exact (hL _).2 (.inl (by simp [topEdges, hrow]))
  · intro hb hrow
    exact (hL _).2 (.inr (.inl ⟨hb, by simp [bottomEdges, hrow]⟩))

theorem card_le {O : Finset Site} (hN : 1 ≤ N) (hO : ∀ s ∈ O, InRange N s) :
    (O.card : ℤ) ≤ N * N := by
  have hsub : O ⊆ Finset.Icc 1 N ×ˢ Finset.Icc 1 N := by
    intro s hs
    obtain ⟨hi, hiN, hj, hjN⟩ := hO s hs
    simp [hi, hiN, hj, hjN]
  have hcard := Finset.card_le_card hsub
  rw [Finset.card_product, Int.card_Icc, Int.add_sub_cancel] at hcard
  have hcast : (((N.toNat * N.toNat : ℕ)) : ℤ) = N * N := by
    rw [Nat.cast_mul, Int.toNat_of_nonneg (by omega)]
  omega

namespace Holds

variable {S} {O : Finset Site}

theorem new (S : U.Lawful) (hpos : 1 ≤ N) (hN : N * N + 2 < 2 ^ 31) :
    ∃ p, Percolation.new U N = some p ∧ Holds S N ∅ p := by
  have hnonneg : 0 ≤ N * N := Int.mul_nonneg (by omega) (by omega)
  have htop : int32 (N * N) = N * N := int32_eq (by omega) (by omega)
  have hbottom : int32 (N * N + 1) = N * N + 1 := int32_eq (by omega) (by omega)
  have hsize : int32 (N * N + 2) = N * N + 2 := int32_eq (by omega) (by omega)
  obtain ⟨uf, huf, hjoined⟩ := S.new_ok (show 0 ≤ N * N + 2 by omega)
  obtain ⟨ufFull, hufFull, hjoinedFull⟩ := S.new_ok (show 0 ≤ N * N + 1 by omega)
  have hneg : ¬ N ≤ 0 := by omega
  refine ⟨⟨N, fun _ _ => false, 0, uf, ufFull, N * N, N * N + 1⟩, ?_, by simp,
    fun _ _ => false, [], [], ⟨rfl, rfl, rfl, rfl, rfl, hjoined, hjoinedFull⟩, ?_, ?_, by simp⟩
  · simp [Percolation.new, hneg, htop, hbottom, hsize, huf, hufFull]
  · simpa using Wired.nil
  · simpa using Wired.nil

theorem openSite (h : Holds S N O p) (hpos : 1 ≤ N) (hN : N * N + 2 < 2 ^ 31)
    (hs : InRange N s) :
    ∃ p', p.openSite s.1 s.2 = some p' ∧ Holds S N (insert s O) p' := by
  obtain ⟨arr, E, F, hfields, hE, hF, harr⟩ := h.fields
  have hguard : ¬ (s.1 < 1 ∨ p.size < s.1 ∨ s.2 < 1 ∨ p.size < s.2) := by
    obtain ⟨hi, hiN, hj, hjN⟩ := hs
    rw [hfields.size]
    omega
  have hisOpen := hfields.isOpen hs
  by_cases hmem : s ∈ O
  · rw [(harr s hs).2 hmem] at hisOpen
    refine ⟨p, by simp [Percolation.openSite, hguard, hisOpen], ?_⟩
    rwa [Finset.insert_eq_of_mem hmem]
  · have hclosed : arr (s.1 - 1) (s.2 - 1) = false := by
      simpa using (harr s hs).not.2 hmem
    rw [hclosed] at hisOpen
    have hO : ∀ t ∈ insert s O, InRange N t := by
      intro t ht
      obtain rfl | ht := Finset.mem_insert.1 ht
      · exact hs
      · exact h.inRange t ht
    have hcard := card_le hpos hO
    have hset : Fields S N (p.setOpen s.1 s.2).arr (insert s O).card E F (p.setOpen s.1 s.2) := by
      rw [Finset.card_insert_of_notMem hmem] at hcard ⊢
      have hcount : (p.setOpen s.1 s.2).openSites = ((O.card + 1 : ℕ) : ℤ) := by
        have hvalue : int32 ((O.card : ℤ) + 1) = (O.card : ℤ) + 1 :=
          int32_eq (by omega) (by omega)
        simp [Percolation.setOpen, hfields.openSites_eq, hvalue]
      exact { hfields with arr_eq := rfl, openSites_eq := hcount }
    have harr' : ∀ t, InRange N t →
        ((p.setOpen s.1 s.2).arr (t.1 - 1) (t.2 - 1) = true ↔ t ∈ insert s O) := by
      intro t ht
      have heq : (t.1 - 1 = s.1 - 1 ∧ t.2 - 1 = s.2 - 1) ↔ t = s := by
        rw [Prod.ext_iff]
        omega
      simp only [Percolation.setOpen, heq, hfields.arr_eq, Finset.mem_insert]
      by_cases hts : t = s
      · simp [hts]
      · simp [hts, harr t ht]
    obtain ⟨p', hunion, hfields'⟩ := hset.unionAll hN hs
    refine ⟨p', ?_, hO, _, _, _, hfields', ?_, ?_, harr'⟩
    · simp [Percolation.openSite, hguard, hisOpen, hunion]
    · refine wired_insert hE h.inRange harr' fun x => ?_
      simp
    · refine wired_insert hF h.inRange harr' fun x => ?_
      simp

/-- Any openings, in any order and with repetitions. -/
theorem openAll (h : Holds S N O p) (hpos : 1 ≤ N) (hN : N * N + 2 < 2 ^ 31)
    {sites : List Site} (hsites : ∀ s ∈ sites, InRange N s) :
    ∃ p', p.openAll sites = some p' ∧ Holds S N (O ∪ sites.toFinset) p' := by
  induction sites generalizing O p with
  | nil => exact ⟨p, rfl, by simpa using h⟩
  | cons s sites ih =>
    obtain ⟨p₁, hopen, h₁⟩ := h.openSite hpos hN (hsites s List.mem_cons_self)
    obtain ⟨p', hrun, h'⟩ := ih h₁ fun t ht => hsites t (List.mem_cons_of_mem s ht)
    refine ⟨p', ?_, ?_⟩
    · rw [Percolation.openAll, List.foldlM_cons, hopen]
      exact hrun
    · rwa [Finset.insert_union, ← Finset.union_insert, ← List.toFinset_cons] at h'

/-! ### The answers -/

theorem isFull_iff (h : Holds S N O p) (hN : N * N + 2 < 2 ^ 31) (hs : InRange N s) :
    ∃ b, p.isFull s.1 s.2 = some b ∧ (b = true ↔ Full O s) := by
  obtain ⟨arr, E, F, hfields, -, hF, harr⟩ := h.fields
  have hguard : ¬ (s.1 < 1 ∨ p.size < s.1 ∨ s.2 < 1 ∨ p.size < s.2) := by
    obtain ⟨hi, hiN, hj, hjN⟩ := hs
    rw [hfields.size]
    omega
  have hisOpen := hfields.isOpen hs
  by_cases hmem : s ∈ O
  · rw [(harr s hs).2 hmem] at hisOpen
    have hnonneg := index_nonneg hs
    have hlt := index_lt hs
    obtain ⟨b, hconn, hb⟩ := S.connected_ok (q := N * N) hfields.ufFull hnonneg (by omega)
      (by omega) (by omega)
    refine ⟨b, ?_, hb.trans (hF.full_iff h.inRange hmem)⟩
    simp [Percolation.isFull, hguard, hisOpen, hfields.getIndex hN hs, hfields.top, hconn]
  · have hclosed : arr (s.1 - 1) (s.2 - 1) = false := by
      simpa using (harr s hs).not.2 hmem
    rw [hclosed] at hisOpen
    refine ⟨false, by simp [Percolation.isFull, hguard, hisOpen], ?_⟩
    simp only [Bool.false_eq_true, false_iff]
    rintro ⟨t, -, hs, -⟩
    exact hmem hs

theorem percolates_iff (h : Holds S N O p) (hpos : 1 ≤ N) :
    ∃ b, p.percolates = some b ∧ (b = true ↔ Percolates N O) := by
  obtain ⟨arr, E, F, hfields, hE, -, -⟩ := h.fields
  have hnonneg : 0 ≤ N * N := Int.mul_nonneg (by omega) (by omega)
  obtain ⟨b, hconn, hb⟩ := S.connected_ok (q := N * N + 1) hfields.uf hnonneg (by omega)
    (by omega) (by omega)
  refine ⟨b, ?_, hb.trans (hE.percolates_iff h.inRange)⟩
  rw [Percolation.percolates, hfields.top, hfields.bottom, hconn]

theorem numberOfOpenSites_eq (h : Holds S N O p) : p.numberOfOpenSites = O.card := by
  obtain ⟨arr, E, F, hfields, -⟩ := h.fields
  exact hfields.openSites_eq

end Holds

/-- After any openings in range, `isFull` tells whether there is a path of open sites to the top
row, `percolates` whether such a path joins the top and the bottom row, and the number of open
sites is the number of different sites opened. -/
theorem percolation_correct (S : U.Lawful) {N : ℤ} (hpos : 1 ≤ N) (hN : N * N + 2 < 2 ^ 31)
    {sites : List Site} (hsites : ∀ s ∈ sites, InRange N s) :
    ∃ p, (Percolation.new U N).bind (·.openAll sites) = some p ∧
      (∀ s, InRange N s →
        ∃ b, p.isFull s.1 s.2 = some b ∧ (b = true ↔ Full {s | s ∈ sites} s)) ∧
      (∃ b, p.percolates = some b ∧ (b = true ↔ Percolates N {s | s ∈ sites})) ∧
      p.numberOfOpenSites = sites.toFinset.card := by
  obtain ⟨p₀, hnew, h₀⟩ := Holds.new S hpos hN
  obtain ⟨p, hrun, h⟩ := h₀.openAll hpos hN hsites
  rw [Finset.empty_union] at h
  have hset : ((sites.toFinset : Finset Site) : Set Site) = {s | s ∈ sites} := by
    ext s
    simp
  refine ⟨p, by rw [hnew]; exact hrun, ?_, ?_, h.numberOfOpenSites_eq⟩
  · intro s hs
    have hfull := h.isFull_iff hN hs
    rwa [hset] at hfull
  · have hperc := h.percolates_iff hpos
    rwa [hset] at hperc

/-! ## A grid of one site -/

/-- A union-find by labels. -/
def byLabels : UnionFind where
  UF := ℤ × (ℤ → ℤ)
  new n := if n < 0 then none else some (n, id)
  union uf p q := if 0 ≤ p ∧ p < uf.1 ∧ 0 ≤ q ∧ q < uf.1 then
    some (uf.1, fun x => if uf.2 x = uf.2 q then uf.2 p else uf.2 x) else none
  connected uf p q := if 0 ≤ p ∧ p < uf.1 ∧ 0 ≤ q ∧ q < uf.1 then
    some (decide (uf.2 p = uf.2 q)) else none

def byLabelsLawful : byLabels.Lawful where
  Joined uf n E := uf.1 = n ∧ Labels E uf.2
  new_ok hn := ⟨_, if_neg (by omega), rfl, labels_nil⟩
  union_ok {uf n E p q} h hp hpn hq hqn := by
    obtain ⟨rfl, hlabels⟩ := h
    exact ⟨_, if_pos ⟨hp, hpn, hq, hqn⟩, rfl, hlabels.append p q⟩
  connected_ok {uf n E p q} h hp hpn hq hqn := by
    obtain ⟨rfl, hlabels⟩ := h
    exact ⟨_, if_pos ⟨hp, hpn, hq, hqn⟩, by simp [hlabels p q]⟩

/-- The only site of a grid, opened twice. -/
theorem percolation_correct_one :
    ∃ p, (Percolation.new byLabels 1).bind (·.openAll [(1, 1), (1, 1)]) = some p ∧
      (∀ s, InRange 1 s →
        ∃ b, p.isFull s.1 s.2 = some b ∧ (b = true ↔ Full {s | s ∈ [(1, 1), (1, 1)]} s)) ∧
      (∃ b, p.percolates = some b ∧ (b = true ↔ Percolates 1 {s | s ∈ [(1, 1), (1, 1)]})) ∧
      p.numberOfOpenSites = ([(1, 1), (1, 1)] : List Site).toFinset.card :=
  percolation_correct byLabelsLawful (by decide) (by decide) (by simp [InRange])

end Courses.Grid
