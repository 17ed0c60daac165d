import Mathlib.Data.Finset.Card
import Mathlib.Data.List.Nodup
import Mathlib.Tactic

/-!
# Set-associative caches

A cache has `ways` places in each set, and a block goes to the set `setOf b` of its. When a set is
full, its least recently used block leaves. A block that was used hits if and only if fewer than
`ways` other blocks of its set were used since.
-/
namespace Courses.Lib.Lru

variable {β ι : Type} [DecidableEq β] [DecidableEq ι]

/-- The blocks of each set, the one used last first. -/
structure Cache (setOf : β → ι) (ways : ℕ) where
  blocks : ι → List β
  nodup : ∀ i, (blocks i).Nodup
  length_le : ∀ i, (blocks i).length ≤ ways
  own_set : ∀ i, ∀ b ∈ blocks i, setOf b = i

namespace Cache

variable {setOf : β → ι} {ways : ℕ}

/-- A cache without blocks. -/
def cold : Cache setOf ways where
  blocks := fun _ => []
  nodup := fun _ => List.nodup_nil
  length_le := fun _ => Nat.zero_le ways
  own_set := fun _ _ h => absurd h List.not_mem_nil

def hits (c : Cache setOf ways) (b : β) : Bool := decide (b ∈ c.blocks (setOf b))

/-- A block becomes the one used last. -/
def toFront (l : List β) (b : β) : List β := b :: l.erase b

/-- The cache after a block is used. -/
def use (c : Cache setOf ways) (b : β) : Cache setOf ways where
  blocks := fun i =>
    if i = setOf b then (toFront (c.blocks i) b).take ways else c.blocks i
  nodup := by
    intro i
    split
    · exact (List.nodup_cons.mpr
        ⟨(c.nodup i).not_mem_erase, (c.nodup i).erase b⟩).sublist (List.take_sublist ways _)
    · exact c.nodup i
  length_le := by
    intro i
    split
    · exact List.length_take_le ways _
    · exact c.length_le i
  own_set := by
    intro i b' hb'
    split at hb'
    case isTrue h =>
      cases List.mem_cons.mp (List.mem_of_mem_take hb') with
      | inl heq => rw [heq, h]
      | inr hmem => exact c.own_set i b' (List.mem_of_mem_erase hmem)
    case isFalse => exact c.own_set i b' hb'

def useAll (c : Cache setOf ways) (bs : List β) : Cache setOf ways := bs.foldl use c

theorem useAll_append (c : Cache setOf ways) (bs : List β) (b : β) :
    c.useAll (bs ++ [b]) = (c.useAll bs).use b := by
  rw [useAll, List.foldl_append]
  rfl

theorem blocks_use_self (c : Cache setOf ways) {b b' : β} (h : setOf b' = setOf b) :
    (c.use b').blocks (setOf b) = (toFront (c.blocks (setOf b)) b').take ways :=
  if_pos h.symm

theorem blocks_use_of_ne (c : Cache setOf ways) {b b' : β} (h : setOf b' ≠ setOf b) :
    (c.use b').blocks (setOf b) = c.blocks (setOf b) :=
  if_neg fun heq => h heq.symm

/-- Only blocks that were used come into the cache. -/
theorem hits_use {c : Cache setOf ways} {b b' : β} (h : (c.use b').hits b = true) :
    b = b' ∨ c.hits b = true := by
  simp only [hits, decide_eq_true_eq] at h ⊢
  by_cases hset : setOf b' = setOf b
  · rw [blocks_use_self c hset] at h
    cases List.mem_cons.mp (List.mem_of_mem_take h) with
    | inl heq => exact Or.inl heq
    | inr hmem => exact Or.inr (List.mem_of_mem_erase hmem)
  · rw [blocks_use_of_ne c hset] at h
    exact Or.inr h

omit [DecidableEq ι] in
theorem hits_cold (b : β) : (cold : Cache setOf ways).hits b = false :=
  decide_eq_false List.not_mem_nil

/-! ## The blocks used since -/

variable (setOf) in
/-- The blocks of the same set among those used. -/
def rivals (b : β) (bs : List β) : Finset β := (bs.filter fun x => setOf x = setOf b).toFinset

theorem mem_rivals {b x : β} {bs : List β} :
    x ∈ rivals setOf b bs ↔ x ∈ bs ∧ setOf x = setOf b := by
  rw [rivals, List.mem_toFinset, List.mem_filter, decide_eq_true_iff]

theorem rivals_append_self {b b' : β} (bs : List β) (h : setOf b' = setOf b) :
    rivals setOf b (bs ++ [b']) = insert b' (rivals setOf b bs) := by
  ext x
  rw [mem_rivals, Finset.mem_insert, mem_rivals, List.mem_append, List.mem_singleton]
  constructor
  · intro hx
    cases hx.1 with
    | inl hmem => exact Or.inr ⟨hmem, hx.2⟩
    | inr heq => exact Or.inl heq
  · intro hx
    cases hx with
    | inl heq => exact ⟨Or.inr heq, heq ▸ h⟩
    | inr hmem => exact ⟨Or.inl hmem.1, hmem.2⟩

theorem rivals_append_of_ne {b b' : β} (bs : List β) (h : setOf b' ≠ setOf b) :
    rivals setOf b (bs ++ [b']) = rivals setOf b bs := by
  simp [rivals, List.filter_append, h]

/-- Where a block is after others were used: behind its rivals, or gone if these fill the set. -/
structure Behind (ways : ℕ) (b : β) (rivals : Finset β) (l : List β) : Prop where
  kept : rivals.card < ways → ∃ before after, l = before ++ b :: after ∧
    before.toFinset = rivals ∧ before.Nodup
  gone : ways ≤ rivals.card → b ∉ l

theorem Behind.length {before : List β} {r : Finset β} (h : before.toFinset = r)
    (hnodup : before.Nodup) : before.length = r.card := by
  rw [← h, List.toFinset_card_of_nodup hnodup]

theorem behind_self (l : List β) (b : β) : Behind ways b ∅ ((toFront l b).take ways) := by
  constructor
  · intro hpos
    refine ⟨[], (l.erase b).take (ways - 1), ?_, rfl, List.nodup_nil⟩
    obtain ⟨n, rfl⟩ := Nat.exists_eq_succ_of_ne_zero (Nat.ne_of_gt hpos)
    rfl
  · intro hzero
    rw [Finset.card_empty, Nat.le_zero] at hzero
    rw [hzero, List.take_zero]
    exact List.not_mem_nil

/-- Another block of the set is used. -/
theorem Behind.use {b b' : β} {r : Finset β} {l : List β} (h : Behind ways b r l)
    (hl : l.Nodup) (hne : b' ≠ b) : Behind ways b (insert b' r) ((toFront l b').take ways) := by
  by_cases hfew : r.card < ways
  · obtain ⟨before, after, rfl, hbefore, hnodup⟩ := h.kept hfew
    have hlength := Behind.length hbefore hnodup
    have hb : b ∉ before := fun hmem => List.disjoint_of_nodup_append hl hmem List.mem_cons_self
    by_cases hmem : b' ∈ before
    · -- it was among the rivals, and their number stays
      have hinsert : insert b' r = r := by
        rw [Finset.insert_eq_self, ← hbefore, List.mem_toFinset]
        exact hmem
      rw [hinsert]
      constructor
      · intro _
        have hcons : (b' :: before.erase b').length = before.length := by
          have hpos := List.length_pos_of_mem hmem
          rw [List.length_cons, List.length_erase_of_mem hmem]
          omega
        refine ⟨b' :: before.erase b', (b :: after).take (ways - r.card) |>.tail, ?_, ?_, ?_⟩
        · rw [toFront, List.erase_append_left _ hmem, ← List.cons_append, List.take_append,
            List.take_of_length_le (by omega), hcons, hlength]
          obtain ⟨n, hn⟩ := Nat.exists_eq_succ_of_ne_zero (Nat.sub_ne_zero_of_lt hfew)
          rw [hn]
          rfl
        · rw [← hbefore]
          ext x
          rw [List.mem_toFinset, List.mem_toFinset, List.mem_cons, hnodup.mem_erase_iff]
          by_cases hx : x = b'
          · simp [hx, hmem]
          · simp [hx]
        · exact List.nodup_cons.mpr ⟨hnodup.not_mem_erase, hnodup.erase b'⟩
      · intro hmany
        omega
    · -- it is a new rival
      have hcard : (insert b' r).card = r.card + 1 := by
        apply Finset.card_insert_of_notMem
        rw [← hbefore, List.mem_toFinset]
        exact hmem
      have herase : toFront (before ++ b :: after) b' =
          (b' :: before) ++ b :: after.erase b' := by
        rw [toFront, List.erase_append_right _ hmem, List.erase_cons_tail (by simpa using hne.symm)]
        rfl
      rw [herase]
      constructor
      · intro hstill
        rw [hcard] at hstill
        refine ⟨b' :: before, (b :: after.erase b').take (ways - (r.card + 1)) |>.tail, ?_, ?_, ?_⟩
        · rw [List.take_append, List.take_of_length_le (by rw [List.length_cons]; omega),
            List.length_cons, hlength]
          obtain ⟨n, hn⟩ := Nat.exists_eq_succ_of_ne_zero (Nat.sub_ne_zero_of_lt hstill)
          rw [hn]
          rfl
        · rw [List.toFinset_cons, hbefore]
        · exact List.nodup_cons.mpr ⟨hmem, hnodup⟩
      · intro hmany
        have hways : ways = (b' :: before).length := by
          rw [List.length_cons]
          omega
        rw [hways, List.take_left]
        simp [hne.symm, hb]
  · have hmany : ways ≤ r.card := not_lt.mp hfew
    have hmore : r.card ≤ (insert b' r).card := Finset.card_le_card (Finset.subset_insert b' r)
    constructor
    · intro hless
      omega
    · intro _ hmem
      cases List.mem_cons.mp (List.mem_of_mem_take hmem) with
      | inl heq => exact hne heq.symm
      | inr hmem => exact h.gone hmany (List.mem_of_mem_erase hmem)

theorem behind_useAll (c : Cache setOf ways) (b : β) (bs : List β) (hb : b ∉ bs) :
    Behind ways b (rivals setOf b bs) (((c.use b).useAll bs).blocks (setOf b)) := by
  induction bs using List.reverseRecOn with
  | nil =>
    rw [useAll, List.foldl_nil, blocks_use_self c rfl]
    exact behind_self _ b
  | append_singleton bs b' ih =>
    rw [List.mem_append, List.mem_singleton, not_or] at hb
    have hbehind := ih hb.1
    rw [useAll_append]
    by_cases hset : setOf b' = setOf b
    · rw [blocks_use_self _ hset, rivals_append_self bs hset]
      exact hbehind.use (((c.use b).useAll bs).nodup _) (Ne.symm hb.2)
    · rw [blocks_use_of_ne _ hset, rivals_append_of_ne bs hset]
      exact hbehind

/-- A block that was used hits if and only if fewer rivals than there are places were used since. -/
theorem hits_useAll_iff (c : Cache setOf ways) (b : β) (bs : List β) (hb : b ∉ bs) :
    ((c.use b).useAll bs).hits b = true ↔ (rivals setOf b bs).card < ways := by
  have hbehind := behind_useAll c b bs hb
  rw [hits, decide_eq_true_eq]
  constructor
  · intro hmem
    by_contra hmany
    exact hbehind.gone (not_lt.mp hmany) hmem
  · intro hfew
    obtain ⟨before, after, hblocks, _, _⟩ := hbehind.kept hfew
    rw [hblocks]
    simp

end Cache

end Courses.Lib.Lru
