import Courses.MallocLab.FreeList

/-!
# Replacing blocks in place

Every call rewrites a group of adjacent blocks into another group over the same
bytes: it splits one, merges several, or changes the tag of one. `HeapRep.retile`
is that step, once for all of them. The bytes of used blocks outside the group
stay as they are.
-/
namespace Courses.MallocLab

open Courses.Lib

variable {c : Config} {s : Heap} {bs pre post grp grp' : List Block} {fl : List ℕ} {p x z : ℕ}

/-- A used block of `z` bytes starts at `p`. -/
def UsedAt (c : Config) (bs : List Block) (p z : ℕ) : Prop :=
  (p, Block.mk z true) ∈ placed c.firstBlock bs

/-- A free block of `z` bytes starts at `p`. -/
def FreeAt (c : Config) (bs : List Block) (p z : ℕ) : Prop :=
  (p, Block.mk z false) ∈ placed c.firstBlock bs

/-- Every free block is on the list. -/
def Complete (c : Config) (bs : List Block) (fl : List ℕ) : Prop :=
  ∀ p z, FreeAt c bs p z → p ∈ fl

/-- The payload bytes of the blocks in `U` are the same in both memories. -/
def Keeps (U : ℕ → ℕ → Prop) (m m' : Mem) : Prop :=
  ∀ p z, U p z → ∀ x, p + 8 ≤ x → x < p + z → m' x = m x

theorem Keeps.refl (U : ℕ → ℕ → Prop) (m : Mem) : Keeps U m m := fun _ _ _ _ _ _ => rfl

theorem Keeps.trans {U : ℕ → ℕ → Prop} {m m' m'' : Mem} (h : Keeps U m m') (h' : Keeps U m' m'') :
    Keeps U m m'' :=
  fun p z hU x hx hx' => (h' p z hU x hx hx').trans (h p z hU x hx hx')

theorem Keeps.mono {U U' : ℕ → ℕ → Prop} {m m' : Mem} (h : Keeps U m m')
    (hU : ∀ p z, U' p z → U p z) : Keeps U' m m' :=
  fun p z hp => h p z (hU p z hp)

theorem FreeAt.apart_usedAt {q w : ℕ} (hp : FreeAt c bs p z) (hq : UsedAt c bs q w) :
    p + z ≤ q ∨ q + w ≤ p := by
  rcases placed_apart hp hq with ⟨-, heq⟩ | hap
  · cases heq
  · exact hap

/-- Where the group of blocks after `pre` starts. -/
def groupStart (c : Config) (pre : List Block) : ℕ := c.firstBlock + span pre

theorem placed_group (pre grp post : List Block) :
    placed c.firstBlock (pre ++ grp ++ post) = placed c.firstBlock pre ++
      placed (groupStart c pre) grp ++ placed (groupStart c pre + span grp) post := by
  rw [placed_append, placed_append, span_append, groupStart, Nat.add_assoc]

/-- The blocks outside the group are there whatever the group is. -/
theorem mem_placed_retile {b : Block} (hpos : 0 < b.size) (hspan : span grp' = span grp) :
    (p, b) ∈ placed c.firstBlock (pre ++ grp' ++ post) ↔
      ((p, b) ∈ placed c.firstBlock (pre ++ grp ++ post) ∧
        (p < groupStart c pre ∨ groupStart c pre + span grp ≤ p)) ∨
          (p, b) ∈ placed (groupStart c pre) grp' := by
  rw [placed_group, placed_group]
  simp only [List.mem_append]
  rw [hspan]
  constructor
  · rintro ((h | h) | h)
    · have := (placed_bounds h).2
      exact Or.inl ⟨Or.inl (Or.inl h), Or.inl (by rw [groupStart]; omega)⟩
    · exact Or.inr h
    · exact Or.inl ⟨Or.inr h, Or.inr (placed_bounds h).1⟩
  · rintro (⟨(h | h) | h, hout⟩ | h)
    · exact Or.inl (Or.inl h)
    · have := placed_bounds h
      omega
    · exact Or.inr h
    · exact Or.inl (Or.inr h)

/-- The blocks on the list are the free blocks outside the group. -/
def ListsOutside (c : Config) (pre grp post : List Block) (fl : List ℕ) : Prop :=
  ∀ q, q ∈ fl ↔ (∃ z, FreeAt c (pre ++ grp ++ post) q z) ∧
    (q < groupStart c pre ∨ groupStart c pre + span grp ≤ q)

/-- A block outside the group ends before it or starts after it. -/
theorem bounds_outside {b : Block}
    (h : (p, b) ∈ placed c.firstBlock (pre ++ grp ++ post))
    (hout : p < groupStart c pre ∨ groupStart c pre + span grp ≤ p) :
    p + b.size ≤ groupStart c pre ∨ groupStart c pre + span grp ≤ p := by
  rw [placed_group, List.mem_append, List.mem_append] at h
  rcases h with (h | h) | h
  · exact Or.inl (placed_bounds h).2
  · have := placed_bounds h
    omega
  · exact Or.inr (placed_bounds h).1

namespace HeapRep

theorem placed_pos (h : HeapRep c s bs fl) {b : Block} (hb : (p, b) ∈ placed c.firstBlock bs) :
    32 ≤ b.size :=
  (h.tiles.of_mem_placed hb).2

/-- The group `grp` becomes `grp'`. The memory changes inside the group and in the
header after it, whose preceding bit follows the group's last block; no block of the
group is on the list. -/
theorem retile (h : HeapRep c s (pre ++ grp ++ post) fl) {m' : Mem}
    (hspan : span grp' = span grp)
    (hout : ∀ x, x < groupStart c pre ∨ groupStart c pre + span grp + 8 ≤ x →
      m' x = s.bytes x)
    (htiles : Tiles m' (groupStart c pre) (lastUsed true pre) grp')
    (hnext : word m' (groupStart c pre + span grp) +
        2 * (lastUsed (lastUsed true pre) grp).toNat =
      word s.bytes (groupStart c pre + span grp) +
        2 * (lastUsed (lastUsed true pre) grp').toNat)
    (hfl : ∀ p ∈ fl, p < groupStart c pre ∨ groupStart c pre + span grp ≤ p) :
    HeapRep c { s with bytes := m' } (pre ++ grp' ++ post) fl := by
  have hall := h.tiles
  rw [tiles_append, tiles_append] at hall
  obtain ⟨⟨hpre, -⟩, hpost⟩ := hall
  rw [span_append, ← Nat.add_assoc] at hpost
  have hfree : ∀ p ∈ fl, p + 24 ≤ groupStart c pre ∨ groupStart c pre + span grp ≤ p := by
    intro p hp
    obtain ⟨z, hz⟩ := h.free p hp
    have hsize := h.placed_pos hz
    have := bounds_outside hz (hfl p hp)
    dsimp only at hsize this
    omega
  have hlast : lastUsed true (pre ++ grp) = lastUsed (lastUsed true pre) grp :=
    lastUsed_append _ _ _
  have hlast' : lastUsed true (pre ++ grp') = lastUsed (lastUsed true pre) grp' :=
    lastUsed_append _ _ _
  have hlen : span (pre ++ grp' ++ post) = span (pre ++ grp ++ post) := by
    simp only [span_append, hspan]
  have hfooter := h.footer
  refine ⟨?_, ?_, ?_, h.brk_le, ?_, h.nodup, ?_⟩
  · rw [tiles_append, tiles_append]
    refine ⟨⟨hpre.frame fun x _ hx => hout x (Or.inl hx), htiles⟩, ?_⟩
    rw [span_append, ← Nat.add_assoc, hspan, hlast']
    rw [hlast] at hpost
    cases post with
    | nil => trivial
    | cons d ds =>
      obtain ⟨hdvd, hmin, hhead, htail, hrest⟩ := hpost
      have hmin' : 32 ≤ d.size := hmin
      refine ⟨hdvd, hmin, ?_, fun hd => ?_, hrest.frame fun x hx _ => hout x (Or.inr ?_)⟩
      · change word m' (groupStart c pre + span grp) = _
        change word s.bytes (groupStart c pre + span grp) = _ at hhead
        rw [hhead, tagged] at hnext
        rw [tagged]
        omega
      · refine Eq.trans ?_ (htail hd)
        refine congrArg SIZE (word_congr fun x hx _ => hout x (Or.inr ?_))
        rw [groupStart]
        omega
      · rw [groupStart]
        omega
  · rw [hlen]
    rw [span_append, span_append, ← Nat.add_assoc, ← Nat.add_assoc] at hfooter ⊢
    rw [lastUsed_append, hlast] at hfooter
    rw [lastUsed_append, hlast']
    cases post with
    | nil =>
      change word m' (groupStart c pre + span grp) = _
      change word s.bytes (groupStart c pre + span grp) = _ at hfooter
      rw [hfooter, tagged] at hnext
      rw [tagged]
      change _ = 0 + (2 * (lastUsed (lastUsed true pre) grp').toNat + _)
      change _ = 0 + (2 * (lastUsed (lastUsed true pre) grp).toNat + _) + _ at hnext
      omega
    | cons d ds =>
      have hmin : 32 ≤ d.size := hpost.2.1
      rw [span_cons] at hfooter ⊢
      refine Eq.trans ?_ hfooter
      refine word_congr fun x hx _ => hout x (Or.inr ?_)
      rw [groupStart]
      omega
  · rw [hlen]
    exact h.brk
  · obtain ⟨hhead, b, hseg⟩ := h.list
    have hfirst : c.heapLo + 8 ≤ groupStart c pre := by
      rw [groupStart, Config.firstBlock]
      omega
    constructor
    · rw [← hhead]
      exact word_congr fun x _ hx => hout x (Or.inl (by omega))
    · refine ⟨b, hseg.frame fun p hp x hx hx' => hout x ?_⟩
      have := hfree p hp
      omega
  · intro p hp
    obtain ⟨z, hz⟩ := h.free p hp
    have hpos := h.placed_pos hz
    dsimp only at hpos
    exact ⟨z, (mem_placed_retile (by dsimp only; omega) hspan).mpr (Or.inl ⟨hz, hfl p hp⟩)⟩

/-- The used blocks after a group has been replaced. -/
theorem usedAt_retile {t : Heap} {fl' : List ℕ} (h : HeapRep c s (pre ++ grp ++ post) fl)
    (h' : HeapRep c t (pre ++ grp' ++ post) fl') (hspan : span grp' = span grp) (p z : ℕ) :
    UsedAt c (pre ++ grp' ++ post) p z ↔
      (UsedAt c (pre ++ grp ++ post) p z ∧
        (p < groupStart c pre ∨ groupStart c pre + span grp ≤ p)) ∨
          (p, Block.mk z true) ∈ placed (groupStart c pre) grp' := by
  rcases Nat.eq_zero_or_pos z with rfl | hpos
  · -- no block is empty
    constructor
    · intro hp
      have := h'.placed_pos hp
      dsimp only at this
      omega
    · rintro (⟨hp, -⟩ | hp)
      · have := h.placed_pos hp
        dsimp only at this
        omega
      · have hmem : UsedAt c (pre ++ grp' ++ post) p 0 := by
          rw [UsedAt, placed_group]
          exact List.mem_append_left _ (List.mem_append_right _ hp)
        exact hmem
  · exact mem_placed_retile hpos hspan

/-- If the free blocks of the new group are on the list, all are. -/
theorem complete_retile {t : Heap} {fl' : List ℕ} (hl : ListsOutside c pre grp post fl)
    (h' : HeapRep c t (pre ++ grp' ++ post) fl') (hspan : span grp' = span grp) (hsub : fl ⊆ fl')
    (hnew : ∀ p z, (p, Block.mk z false) ∈ placed (groupStart c pre) grp' → p ∈ fl') :
    Complete c (pre ++ grp' ++ post) fl' := by
  intro p z hp
  have hpos := h'.placed_pos hp
  dsimp only at hpos
  rcases (mem_placed_retile (by dsimp only; omega) hspan).mp hp with ⟨hold, hout⟩ | hin
  · exact hsub ((hl p).mpr ⟨⟨z, hold⟩, hout⟩)
  · exact hnew p z hin

/-- Used blocks outside the group keep their payload. -/
theorem keeps_outside (h : HeapRep c s (pre ++ grp ++ post) fl) {m' : Mem}
    (hout : ∀ x, x < groupStart c pre ∨ groupStart c pre + span grp + 8 ≤ x →
      m' x = s.bytes x) :
    Keeps (fun p z => UsedAt c (pre ++ grp ++ post) p z ∧
      (p < groupStart c pre ∨ groupStart c pre + span grp ≤ p)) s.bytes m' := by
  rintro p z ⟨hused, hp⟩ x hx hx'
  have hsize := h.placed_pos hused
  have := bounds_outside hused hp
  dsimp only at hsize this
  exact hout x (by omega)

/-- A change of links touches no payload. -/
theorem keeps_list (h : HeapRep c s bs fl) {gl : List ℕ} {m' : Mem}
    (hm : ∀ x, ¬ ListByte c gl x → m' x = s.bytes x)
    (hfree : ∀ p ∈ gl, ∃ z, FreeAt c bs p z) : Keeps (UsedAt c bs) s.bytes m' := by
  intro p z hused x hx hx'
  apply hm
  have hb := placed_bounds hused
  rintro (hlo | ⟨q, hq, hqx⟩)
  · omega
  · obtain ⟨w, hw⟩ := hfree q hq
    have hsize := h.placed_pos hw
    have := hw.apart_usedAt hused
    dsimp only at hsize
    omega

end HeapRep
end Courses.MallocLab

/-!
# Neighbouring blocks

Two free blocks side by side are memory that one request cannot use. The blocks of a
heap can be read off its headers, so whether there are such neighbours is a property
of the heap alone.
-/
namespace Courses.MallocLab

open Courses.Lib

/-- Of two blocks side by side, one is in use. -/
def NoAdjacentFree (bs : List Block) : Prop :=
  bs.IsChain fun b d => b.used = true ∨ d.used = true

/-- Whether the first block is in use; the end of the heap counts as a used block. -/
def headUsed : List Block → Bool
  | [] => true
  | b :: _ => b.used

variable {c : Config} {s : Heap} {m : Mem} {bs xs ys : List Block} {fl : List ℕ} {a hi : ℕ}
  {b : Block}

theorem noAdjacentFree_nil : NoAdjacentFree [] := List.IsChain.nil

theorem noAdjacentFree_cons :
    NoAdjacentFree (b :: ys) ↔ NoAdjacentFree ys ∧ (b.used = true ∨ headUsed ys = true) := by
  unfold NoAdjacentFree
  rw [List.isChain_cons, and_comm]
  apply and_congr_right
  intro _
  cases ys with
  | nil => simp [headUsed]
  | cons d ys => simp [headUsed]

theorem noAdjacentFree_append :
    NoAdjacentFree (xs ++ ys) ↔
      NoAdjacentFree xs ∧ NoAdjacentFree ys ∧ (lastUsed true xs = true ∨ headUsed ys = true) := by
  induction xs with
  | nil => simp [noAdjacentFree_nil, lastUsed]
  | cons x xs ih =>
    rw [List.cons_append, noAdjacentFree_cons, noAdjacentFree_cons, ih]
    cases xs with
    | nil => simp [noAdjacentFree_nil, headUsed, lastUsed]
    | cons z xs =>
      have hhead : headUsed (z :: xs ++ ys) = headUsed (z :: xs) := rfl
      have hlast : lastUsed true (x :: z :: xs) = lastUsed true (z :: xs) := rfl
      rw [hhead, hlast]
      tauto

/-- A block may be replaced by a used one. -/
theorem NoAdjacentFree.use {z n : ℕ} {u : Bool} (h : NoAdjacentFree (xs ++ [⟨z, u⟩] ++ ys)) :
    NoAdjacentFree (xs ++ [⟨n, true⟩] ++ ys) := by
  rw [List.append_assoc, List.singleton_append, noAdjacentFree_append, noAdjacentFree_cons] at h ⊢
  exact ⟨h.1, ⟨h.2.1.1, Or.inl rfl⟩, Or.inr rfl⟩

/-- A block may be cut in two, the rest being free, where a used block follows. -/
theorem NoAdjacentFree.cut {z n k : ℕ} {u : Bool} (h : NoAdjacentFree (xs ++ [⟨z, u⟩] ++ ys))
    (hnext : headUsed ys = true) : NoAdjacentFree (xs ++ [⟨n, true⟩, ⟨k, false⟩] ++ ys) := by
  rw [List.append_assoc, List.singleton_append, noAdjacentFree_append, noAdjacentFree_cons] at h
  rw [List.append_assoc, List.cons_append, List.singleton_append, noAdjacentFree_append,
    noAdjacentFree_cons, noAdjacentFree_cons]
  exact ⟨h.1, ⟨⟨h.2.1.1, Or.inr hnext⟩, Or.inl rfl⟩, Or.inr rfl⟩

/-- A used block may take in the free block after it. -/
theorem NoAdjacentFree.absorb {z w n : ℕ}
    (h : NoAdjacentFree (xs ++ [⟨z, true⟩] ++ ⟨w, false⟩ :: ys)) :
    NoAdjacentFree (xs ++ [⟨n, true⟩] ++ ys) := by
  rw [List.append_assoc, List.singleton_append, noAdjacentFree_append, noAdjacentFree_cons,
    noAdjacentFree_cons] at h
  rw [List.append_assoc, List.singleton_append, noAdjacentFree_append, noAdjacentFree_cons]
  exact ⟨h.1, ⟨h.2.1.1.1, Or.inl rfl⟩, Or.inr rfl⟩

/-- What stands after a free block is in use. -/
theorem NoAdjacentFree.headUsed_after {z : ℕ} (h : NoAdjacentFree (xs ++ ⟨z, false⟩ :: ys)) :
    headUsed ys = true := by
  rw [noAdjacentFree_append, noAdjacentFree_cons] at h
  exact h.2.1.2.resolve_left Bool.false_ne_true

/-! ## The blocks of a heap -/

/-- The blocks that the headers from `a` on describe, up to the address `hi`. -/
def blocksFrom (m : Mem) (hi : ℕ) : ℕ → ℕ → List Block
  | 0, _ => []
  | fuel + 1, a =>
    if a < hi then
      ⟨SIZE (word m a), decide (word m a &&& TAG_USED = 1)⟩ ::
        blocksFrom m hi fuel (a + SIZE (word m a))
    else []

def heapBlocks (c : Config) (s : Heap) : List Block :=
  blocksFrom s.bytes (s.brk - 8) s.brk c.firstBlock

/-- No two adjacent blocks of the heap are free. -/
def Coalesced (c : Config) (s : Heap) : Prop := NoAdjacentFree (heapBlocks c s)

instance (bs : List Block) : Decidable (NoAdjacentFree bs) :=
  inferInstanceAs (Decidable (List.IsChain _ _))

instance (c : Config) (s : Heap) : Decidable (Coalesced c s) :=
  inferInstanceAs (Decidable (NoAdjacentFree _))

/-- Headers that are right determine the blocks. -/
theorem blocksFrom_eq {fuel : ℕ}
    (h : ∀ p b, (p, b) ∈ placed a bs →
      SIZE (word m p) = b.size ∧ 0 < b.size ∧ word m p &&& TAG_USED = b.used.toNat)
    (hhi : a + span bs = hi) (hfuel : span bs < fuel) : blocksFrom m hi fuel a = bs := by
  induction bs generalizing a fuel with
  | nil =>
    rw [span_nil] at hhi
    obtain _ | fuel := fuel
    · rfl
    · rw [blocksFrom, if_neg (by omega)]
  | cons b bs ih =>
    obtain ⟨hsize, hpos, hused⟩ := h a b List.mem_cons_self
    rw [span_cons] at hhi hfuel
    obtain _ | fuel := fuel
    · exact absurd hfuel (Nat.not_lt_zero _)
    have hrest : blocksFrom m hi fuel (a + b.size) = bs :=
      ih (fun p d hp => h p d (List.mem_cons_of_mem _ hp)) (by omega) (by omega)
    rw [blocksFrom, if_pos (by omega), hsize, hused, hrest]
    congr
    cases b.used <;> rfl

theorem HeapRep.heapBlocks_eq (h : HeapRep c s bs fl) : heapBlocks c s = bs := by
  have hbrk := h.brk
  have hlt := h.brk_lt
  apply blocksFrom_eq _ (by omega) (by omega)
  intro p b hp
  have hb := placed_bounds hp
  obtain ⟨xs, ys, rfl, rfl⟩ := exists_split_of_mem_placed hp
  obtain ⟨-, hdvd, hmin, hhead, -⟩ := (tiles_append _ _ _ _).mp h.tiles
  rw [MIN_BLOCK_SIZE] at hmin
  rw [hhead, SIZE_tagged hdvd (by omega), tagged_land_used hdvd]
  exact ⟨rfl, by omega, rfl⟩

theorem HeapRep.coalesced_iff (h : HeapRep c s bs fl) : Coalesced c s ↔ NoAdjacentFree bs := by
  rw [Coalesced, h.heapBlocks_eq]

end Courses.MallocLab
