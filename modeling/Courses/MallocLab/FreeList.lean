import Courses.MallocLab.Model

/-!
# The free list inside the heap

`HeapRep c s bs fl` says that the heap `s` is tiled by the blocks `bs` and that the
list starting in its first word runs through the addresses `fl`, which are those of
free blocks. Between the calls every free block is on the list; inside a call some
are not, so the two halves stand side by side. Insertion and removal change `fl`
and leave the tiling alone.
-/
namespace Courses.MallocLab

open Courses.Lib

/-! ## Runs of the allocator -/

section Runs

variable {α β : Type} {x : HeapM α} {f : α → HeapM β} {s : Heap} {P Q : α → Heap → Prop}
  {R : β → Heap → Prop} {c : Config} {a v : ℕ}

/-- `x` returns with `Q`, unless memory runs out. -/
def Runs (x : HeapM α) (s : Heap) (Q : α → Heap → Prop) : Prop :=
  match x s with
  | .ok r => Q r.1 r.2
  | .error e => e = .outOfMemory

theorem runs_pure {y : α} (h : Q y s) : Runs (pure y) s Q := h

theorem Runs.mono (h : Runs x s P) (hPQ : ∀ y t, P y t → Q y t) : Runs x s Q := by
  rw [Runs] at h ⊢
  cases hx : x s with
  | error e => rwa [hx] at h
  | ok r =>
    rw [hx] at h
    exact hPQ _ _ h

theorem Runs.bind (hx : Runs x s P) (hf : ∀ y t, P y t → Runs (f y) t R) :
    Runs (x >>= f) s R := by
  have heq : (x >>= f) s = (x s).bind fun r => f r.1 r.2 := rfl
  rw [Runs] at hx ⊢
  rw [heq]
  cases hxs : x s with
  | error e => rwa [hxs] at hx
  | ok r =>
    rw [hxs] at hx
    exact hf _ _ hx

theorem runs_get {g : Heap → HeapM β} (h : Runs (g s) s R) : Runs (get >>= g) s R := h

theorem runs_load {g : ℕ → HeapM β} (ha : c.heapLo ≤ a ∧ a + 8 ≤ s.brk)
    (h : Runs (g (word s.bytes a)) s R) : Runs (load c a >>= g) s R := by
  have hload : load c a s = .ok (word s.bytes a, s) := if_pos ha
  refine Runs.bind (P := fun y t => y = word s.bytes a ∧ t = s) ?_ ?_
  · rw [Runs, hload]
    exact ⟨rfl, rfl⟩
  · intro y t hyt
    rw [hyt.1, hyt.2]
    exact h

theorem runs_store_last {Q : Unit → Heap → Prop} (ha : c.heapLo ≤ a ∧ a + 8 ≤ s.brk)
    (h : Q () { s with bytes := setWord s.bytes a v }) : Runs (store c a v) s Q := by
  have hstore : store c a v s = .ok ((), { s with bytes := setWord s.bytes a v }) := if_pos ha
  rw [Runs, hstore]
  exact h

theorem runs_store {g : Unit → HeapM β} (ha : c.heapLo ≤ a ∧ a + 8 ≤ s.brk)
    (h : Runs (g ()) { s with bytes := setWord s.bytes a v } R) :
    Runs (store c a v >>= g) s R :=
  Runs.bind (runs_store_last (Q := fun _ t => t = { s with bytes := setWord s.bytes a v }) ha rfl)
    fun _ _ ht => ht ▸ h

end Runs

/-! ## Linked segments of free blocks -/

/-- The blocks at `ps` are linked in order, the first back to `b`, the last on to `e`. -/
def Segment (m : Mem) (b : ℕ) : List ℕ → ℕ → Prop
  | [], _ => True
  | p :: ps, e => word m (p + 8) = ps.headD e ∧ word m (p + 16) = b ∧ Segment m p ps e

/-- No two of the addresses are so close that their link words overlap. -/
def Apart (ps : List ℕ) : Prop :=
  ∀ p ∈ ps, ∀ q ∈ ps, p ≠ q → p + 24 ≤ q ∨ q + 24 ≤ p

section Segment

variable {m m' : Mem} {b b' e e' p q a v : ℕ} {ps xs ys : List ℕ}

theorem segment_append (b : ℕ) (xs ys : List ℕ) (e : ℕ) :
    Segment m b (xs ++ ys) e ↔ Segment m b xs (ys.headD e) ∧ Segment m (xs.getLastD b) ys e := by
  induction xs generalizing b with
  | nil => simp [Segment]
  | cons x xs ih =>
    have hhead : (xs ++ ys).headD e = xs.headD (ys.headD e) := by cases xs <;> rfl
    rw [List.cons_append, Segment, Segment, ih, hhead, List.getLastD_cons, and_assoc, and_assoc]

theorem segment_middle (b : ℕ) (xs ys : List ℕ) (p e : ℕ) :
    Segment m b (xs ++ p :: ys) e ↔ Segment m b xs p ∧
      word m (p + 8) = ys.headD e ∧ word m (p + 16) = xs.getLastD b ∧ Segment m p ys e :=
  segment_append b xs (p :: ys) e

/-- A store that misses every link word of the segment. -/
theorem Segment.store (h : Segment m b ps e) (ha : ∀ p ∈ ps, a ≤ p ∨ p + 24 ≤ a) :
    Segment (setWord m a v) b ps e := by
  induction ps generalizing b with
  | nil => trivial
  | cons p ps ih =>
    have hp := ha p List.mem_cons_self
    refine ⟨?_, ?_, ih h.2.2 fun q hq => ha q (List.mem_cons_of_mem _ hq)⟩
    · rw [word_setWord_of_disjoint (by omega)]
      exact h.1
    · rw [word_setWord_of_disjoint (by omega)]
      exact h.2.1

theorem Segment.frame (h : Segment m b ps e)
    (hm : ∀ p ∈ ps, ∀ x, p + 8 ≤ x → x < p + 24 → m' x = m x) : Segment m' b ps e := by
  induction ps generalizing b with
  | nil => trivial
  | cons p ps ih =>
    have hp := hm p List.mem_cons_self
    refine ⟨?_, ?_, ih h.2.2 fun q hq => hm q (List.mem_cons_of_mem _ hq)⟩
    · rw [word_congr fun x _ _ => hp x (by omega) (by omega)]
      exact h.1
    · rw [word_congr fun x _ _ => hp x (by omega) (by omega)]
      exact h.2.1

theorem Apart.mono (h : Apart ys) (hsub : xs ⊆ ys) : Apart xs :=
  fun p hp q hq => h p (hsub hp) q (hsub hq)

/-- The last block of a segment gets a new successor. -/
theorem Segment.setNext (h : Segment m b (xs ++ [p]) e) (hp : p ∉ xs) (ha : Apart (xs ++ [p]))
    (he : e' < 2 ^ 64) : Segment (setWord m (p + 8) e') b (xs ++ [p]) e' := by
  rw [segment_middle] at h ⊢
  refine ⟨h.1.store fun q hq => ?_, ?_, ?_, trivial⟩
  · have hne : q ≠ p := fun heq => hp (heq ▸ hq)
    have := ha q (by simp [hq]) p (by simp) hne
    omega
  · exact word_setWord_self he
  · rw [word_setWord_of_disjoint (by omega)]
    exact h.2.2.1

/-- The first block of a segment gets a new predecessor. -/
theorem Segment.setPrev (h : Segment m b (p :: ys) e) (hp : p ∉ ys) (ha : Apart (p :: ys))
    (hb : b' < 2 ^ 64) : Segment (setWord m (p + 16) b') b' (p :: ys) e := by
  refine ⟨?_, word_setWord_self hb, h.2.2.store fun q hq => ?_⟩
  · rw [word_setWord_of_disjoint (by omega)]
    exact h.1
  · have hne : q ≠ p := fun heq => hp (heq ▸ hq)
    have := ha q (by simp [hq]) p (by simp) hne
    omega

end Segment

/-! ## The heap and its list -/

variable {c : Config}

/-- The first block of the heap comes after the word that holds the list's head. -/
def Config.firstBlock (c : Config) : ℕ := c.heapLo + 8

def FreeList (c : Config) (m : Mem) (fl : List ℕ) : Prop :=
  word m c.heapLo = fl.headD 0 ∧ ∃ b, Segment m b fl 0

structure HeapRep (c : Config) (s : Heap) (bs : List Block) (fl : List ℕ) : Prop where
  tiles : Tiles s.bytes c.firstBlock true bs
  footer : word s.bytes (c.firstBlock + span bs) = tagged 0 (lastUsed true bs) true
  brk : c.firstBlock + span bs + 8 = s.brk
  brk_le : s.brk ≤ c.maxAddr
  list : FreeList c s.bytes fl
  nodup : fl.Nodup
  free : ∀ p ∈ fl, ∃ z, (p, Block.mk z false) ∈ placed c.firstBlock bs

/-- The bytes of the list: its head and the links of its blocks. -/
def ListByte (c : Config) (fl : List ℕ) (x : ℕ) : Prop :=
  (c.heapLo ≤ x ∧ x < c.firstBlock) ∨ ∃ p ∈ fl, p + 8 ≤ x ∧ x < p + 24

section ListByte

variable {m : Mem} {fl : List ℕ} {p v x : ℕ}

theorem setWord_heapLo (hx : ¬ ListByte c fl x) : setWord m c.heapLo v x = m x := by
  apply setWord_outside
  by_contra hcon
  exact hx (Or.inl ⟨by omega, by rw [Config.firstBlock]; omega⟩)

theorem setWord_next (hx : ¬ ListByte c fl x) (hp : p ∈ fl) : setWord m (p + 8) v x = m x := by
  apply setWord_outside
  by_contra hcon
  exact hx (Or.inr ⟨p, hp, by omega, by omega⟩)

theorem setWord_prev (hx : ¬ ListByte c fl x) (hp : p ∈ fl) : setWord m (p + 16) v x = m x := by
  apply setWord_outside
  by_contra hcon
  exact hx (Or.inr ⟨p, hp, by omega, by omega⟩)

end ListByte

/-- What the list needs of the heap, without the tiling. -/
structure ListRep (c : Config) (s : Heap) (fl : List ℕ) : Prop where
  list : FreeList c s.bytes fl
  nodup : fl.Nodup
  apart : Apart fl
  bounds : ∀ p ∈ fl, c.firstBlock ≤ p ∧ p + 40 ≤ s.brk
  firstBlock_le : c.firstBlock ≤ s.brk
  brk_lt : s.brk < 2 ^ 64

/-- An insertion links the block in front of the list; only links change. -/
theorem ListRep.runs_insertFreeBlock {s : Heap} {fl : List ℕ} {p : ℕ} (h : ListRep c s fl)
    (hpb : c.firstBlock ≤ p ∧ p + 40 ≤ s.brk) (hapart : ∀ q ∈ fl, q + 24 ≤ p ∨ p + 24 ≤ q) :
    Runs (insertFreeBlock c p) s (fun _ t => FreeList c t.bytes (p :: fl) ∧ t.brk = s.brk ∧
      ∀ x, ¬ ListByte c (p :: fl) x → t.bytes x = s.bytes x) := by
  obtain ⟨hhead, b, hseg⟩ := h.list
  have hfirst : c.firstBlock = c.heapLo + 8 := rfl
  have hle := h.firstBlock_le
  have hbrk := h.brk_lt
  have hpos := c.heapLo_pos
  have hnext : nextField p = p + 8 := wadd_eq (by omega)
  have hprev : prevField p = p + 16 := wadd_eq (by omega)
  rw [insertFreeBlock, hnext, hprev]
  apply runs_load (by omega)
  apply runs_store (by omega)
  rw [hhead]
  cases fl with
  | nil =>
    rw [List.headD_nil, if_neg (not_not.mpr rfl)]
    apply runs_store_last (by dsimp only; omega)
    refine ⟨⟨word_setWord_self (by omega), _, ?_, rfl, trivial⟩, rfl, fun x hx => ?_⟩
    · dsimp only
      rw [word_setWord_of_disjoint (by omega)]
      exact word_setWord_self (by decide)
    · exact (setWord_heapLo hx).trans (setWord_next hx List.mem_cons_self)
  | cons r fl =>
    have hr := h.bounds r List.mem_cons_self
    have hrmem : r ∈ p :: r :: fl := by simp
    have hpr := hapart r List.mem_cons_self
    have hrfl := (List.nodup_cons.mp h.nodup).1
    have hrprev : prevField r = r + 16 := wadd_eq (by omega)
    rw [List.headD_cons, if_pos (by omega), hrprev]
    apply runs_load (by dsimp only; omega)
    apply runs_store (by dsimp only; omega)
    apply runs_store (by dsimp only; omega)
    apply runs_store_last (by dsimp only; omega)
    dsimp only
    refine ⟨⟨word_setWord_self (by omega), _, ?_, rfl, ?_⟩, rfl, fun x hx => ?_⟩
    · rw [word_setWord_of_disjoint (by omega), word_setWord_of_disjoint (by omega),
        word_setWord_of_disjoint (by omega)]
      exact word_setWord_self (by omega)
    · have hfar : ∀ q ∈ r :: fl, c.heapLo ≤ q ∧ (q + 24 ≤ p ∨ p + 24 ≤ q) := fun q hq =>
        ⟨by have := (h.bounds q hq).1; omega, hapart q hq⟩
      have hset : Segment (setWord (setWord s.bytes (p + 8) r) (p + 16)
          (word (setWord s.bytes (p + 8) r) (r + 16))) b (r :: fl) 0 := by
        refine Segment.store (hseg.store fun q hq => ?_) fun q hq => ?_
        · have := hfar q hq
          omega
        · have := hfar q hq
          omega
      apply (hset.setPrev hrfl h.apart (by omega)).store
      intro q hq
      have := hfar q hq
      omega
    · exact (setWord_heapLo hx).trans ((setWord_prev hx hrmem).trans
        ((setWord_prev hx List.mem_cons_self).trans (setWord_next hx List.mem_cons_self)))

namespace HeapRep

variable {s : Heap} {bs : List Block} {fl xs ys : List ℕ} {p q : ℕ}

theorem bounds (h : HeapRep c s bs fl) (hp : p ∈ fl) :
    c.firstBlock ≤ p ∧ p + 40 ≤ s.brk ∧ p + 40 < 2 ^ 64 := by
  obtain ⟨z, hz⟩ := h.free p hp
  have hb := placed_bounds hz
  have hsize := (h.tiles.of_mem_placed hz).2
  have := h.brk
  have := h.brk_le
  have := c.maxAddr_lt
  dsimp only at hb hsize
  omega

theorem apart (h : HeapRep c s bs fl) : Apart fl := by
  intro p hp q hq hne
  obtain ⟨z, hz⟩ := h.free p hp
  obtain ⟨w, hw⟩ := h.free q hq
  have hsize := (h.tiles.of_mem_placed hz).2
  have hsize' := (h.tiles.of_mem_placed hw).2
  have := placed_apart hz hw
  dsimp only at hsize hsize' this
  omega

theorem headD_ne_zero (h : HeapRep c s bs fl) : fl.headD 0 = 0 ↔ fl = [] := by
  cases fl with
  | nil => simp
  | cons p fl =>
    have hp := (h.bounds List.mem_cons_self).1
    have hpos := c.heapLo_pos
    rw [Config.firstBlock] at hp
    simp only [List.headD_cons, List.cons_ne_nil, iff_false]
    omega

/-- A change confined to the links of free blocks leaves the tiling as it was. -/
theorem relist {fl' gl : List ℕ} {m' : Mem} (h : HeapRep c s bs fl)
    (hm : ∀ x, ¬ ListByte c gl x → m' x = s.bytes x)
    (hfree : ∀ p ∈ gl, ∃ z, (p, Block.mk z false) ∈ placed c.firstBlock bs)
    (hlist : FreeList c m' fl') (hnodup : fl'.Nodup) (hsub : fl' ⊆ gl) :
    HeapRep c { s with bytes := m' } bs fl' := by
  have hword : ∀ a, c.firstBlock ≤ a → (∀ p ∈ gl, a + 8 ≤ p + 8 ∨ p + 24 ≤ a) →
      word m' a = word s.bytes a := by
    intro a ha hp
    apply word_congr
    intro x hx hx'
    apply hm
    rintro (hlo | ⟨p, hmem, hpx⟩)
    · omega
    · have := hp p hmem
      omega
  refine ⟨h.tiles.congr fun p b hp => ?_, ?_, h.brk, h.brk_le, hlist, hnodup,
    fun p hp => hfree p (hsub hp)⟩
  · have hb := placed_bounds hp
    have hsize := (h.tiles.of_mem_placed hp).2
    have hapart : ∀ q ∈ gl, q = p ∨ q + 32 ≤ p ∨ p + b.size ≤ q := by
      intro q hq
      obtain ⟨z, hz⟩ := hfree q hq
      have := placed_apart hp hz
      have := (h.tiles.of_mem_placed hz).2
      dsimp only at *
      omega
    constructor
    · apply hword p hb.1
      intro q hq
      have := hapart q hq
      omega
    · intro _
      apply hword _ (by omega)
      intro q hq
      have := hapart q hq
      omega
  · rw [hword _ (by omega), h.footer]
    intro q hq
    obtain ⟨z, hz⟩ := hfree q hq
    have := placed_bounds hz
    have := (h.tiles.of_mem_placed hz).2
    dsimp only at *
    omega

theorem brk_lt (h : HeapRep c s bs fl) : s.brk < 2 ^ 64 := h.brk_le.trans_lt c.maxAddr_lt

theorem heapLo_range (h : HeapRep c s bs fl) : c.heapLo ≤ c.heapLo ∧ c.heapLo + 8 ≤ s.brk := by
  have := h.brk
  rw [Config.firstBlock] at this
  omega

theorem fields (h : HeapRep c s bs fl) (hp : p ∈ fl) :
    nextField p = p + 8 ∧ prevField p = p + 16 := by
  have := (h.bounds hp).2.2
  exact ⟨wadd_eq (by omega), wadd_eq (by omega)⟩

theorem listRep (h : HeapRep c s bs fl) : ListRep c s fl := by
  refine ⟨h.list, h.nodup, h.apart, fun p hp => ?_, ?_, h.brk_lt⟩
  · exact ⟨(h.bounds hp).1, (h.bounds hp).2.1⟩
  · have := h.brk
    omega

/-- What a removal leaves: the block is off the list, and only links have changed. -/
def Removed (c : Config) (s : Heap) (bs : List Block) (xs : List ℕ) (p : ℕ) (ys : List ℕ)
    (t : Heap) : Prop :=
  HeapRep c t bs (xs ++ ys) ∧ t.brk = s.brk ∧
    ∀ x, ¬ ListByte c (xs ++ p :: ys) x → t.bytes x = s.bytes x

theorem removed (h : HeapRep c s bs (xs ++ p :: ys)) {m' : Mem}
    (hm : ∀ x, ¬ ListByte c (xs ++ p :: ys) x → m' x = s.bytes x)
    (hlist : FreeList c m' (xs ++ ys)) : Removed c s bs xs p ys { s with bytes := m' } := by
  have hsub := List.Sublist.append_left (List.sublist_cons_self p ys) xs
  exact ⟨h.relist hm h.free hlist (h.nodup.sublist hsub) hsub.subset, rfl, hm⟩

theorem not_mem_left (h : HeapRep c s bs (xs ++ p :: ys)) : p ∉ xs :=
  fun hm => (List.nodup_append.mp h.nodup).2.2 p hm p List.mem_cons_self rfl

theorem not_mem_right (h : HeapRep c s bs (xs ++ p :: ys)) : p ∉ ys :=
  (List.nodup_cons.mp (List.nodup_append.mp h.nodup).2.1).1

/-- Removal of the head of the list. -/
theorem runs_removeFreeBlock_head (h : HeapRep c s bs (p :: ys)) :
    Runs (removeFreeBlock c p) s (fun _ t => Removed c s bs [] p ys t) := by
  obtain ⟨hhead, b, hnext, hprev, hseg⟩ := h.list
  have hp := h.bounds List.mem_cons_self
  have hb : b < 2 ^ 64 := hprev ▸ word_lt _ _
  have hfirst : c.firstBlock = c.heapLo + 8 := rfl
  rw [List.headD_cons] at hhead
  rw [removeFreeBlock, (h.fields List.mem_cons_self).1, (h.fields List.mem_cons_self).2]
  apply runs_load (by omega)
  apply runs_load (by omega)
  rw [hnext, hprev]
  cases ys with
  | nil =>
    rw [List.headD_nil, if_neg (not_not.mpr rfl)]
    apply runs_load (by exact h.heapLo_range)
    rw [hhead, if_pos rfl]
    apply runs_store_last (by exact h.heapLo_range)
    apply removed h (fun x hx => setWord_heapLo hx)
    exact ⟨word_setWord_self (by decide), b, trivial⟩
  | cons r ys =>
    have hrmem : r ∈ p :: r :: ys := by simp
    have hr := h.bounds hrmem
    have hsub : r :: ys ⊆ p :: r :: ys := List.subset_cons_self _ _
    have hrep : HeapRep c s bs ([p] ++ r :: ys) := h
    rw [List.headD_cons, if_pos (by omega), (h.fields hrmem).2]
    apply runs_store (by omega)
    apply runs_load (by exact h.heapLo_range)
    dsimp only
    rw [word_setWord_of_disjoint (by omega), hhead, if_pos rfl]
    apply runs_store_last (by exact h.heapLo_range)
    apply removed h
    · intro x hx
      exact (setWord_heapLo hx).trans (setWord_prev hx hrmem)
    · refine ⟨word_setWord_self (by omega), b, ?_⟩
      apply (hseg.setPrev hrep.not_mem_right (h.apart.mono hsub) hb).store
      intro q hq
      have := (h.bounds (hsub hq)).1
      omega

/-- Removal of a block that has a predecessor on the list. -/
theorem runs_removeFreeBlock_next (h : HeapRep c s bs (xs ++ [q] ++ p :: ys)) :
    Runs (removeFreeBlock c p) s (fun _ t => Removed c s bs (xs ++ [q]) p ys t) := by
  obtain ⟨hhead, b, hseg⟩ := h.list
  obtain ⟨hleft, hnext, hprev, hright⟩ := (segment_middle b (xs ++ [q]) ys p 0).mp hseg
  have hpmem : p ∈ xs ++ [q] ++ p :: ys := by simp
  have hqmem : q ∈ xs ++ [q] ++ p :: ys := by simp
  have hp := h.bounds hpmem
  have hq := h.bounds hqmem
  have hfirst : c.firstBlock = c.heapLo + 8 := rfl
  have hrep : HeapRep c s bs (xs ++ q :: p :: ys) := by simpa using h
  have hleftsub : xs ++ [q] ⊆ xs ++ [q] ++ p :: ys := List.subset_append_left _ _
  have hhead' : ∀ zs, (xs ++ [q] ++ zs).headD 0 = (xs ++ [q]).headD 0 := by
    intro zs
    cases xs <;> rfl
  have hne : p ≠ (xs ++ [q]).headD 0 := by
    rintro heq
    apply h.not_mem_left
    cases xs <;> simp [heq]
  rw [hhead'] at hhead
  rw [List.getLastD_concat] at hprev
  rw [removeFreeBlock, (h.fields hpmem).1, (h.fields hpmem).2]
  apply runs_load (by omega)
  apply runs_load (by omega)
  rw [hnext, hprev]
  cases ys with
  | nil =>
    rw [List.headD_nil, if_neg (not_not.mpr rfl)]
    apply runs_load (by exact h.heapLo_range)
    rw [hhead, if_neg hne, if_pos (by omega), (h.fields hqmem).1]
    apply runs_store_last (by omega)
    apply removed h (fun x hx => setWord_next hx hqmem)
    constructor
    · rw [word_setWord_of_disjoint (by omega), hhead, hhead']
    · rw [List.append_nil]
      exact ⟨b, hleft.setNext hrep.not_mem_left (h.apart.mono hleftsub) (by decide)⟩
  | cons r ys =>
    have hrmem : r ∈ xs ++ [q] ++ p :: r :: ys := by simp
    have hr := h.bounds hrmem
    have hrightsub : r :: ys ⊆ xs ++ [q] ++ p :: r :: ys := fun x hx =>
      List.mem_append_right _ (List.mem_cons_of_mem _ hx)
    have hdisj : ∀ x ∈ xs ++ [q], ∀ y ∈ r :: ys, x ≠ y := fun x hx y hy =>
      (List.nodup_append.mp h.nodup).2.2 x hx y (List.mem_cons_of_mem _ hy)
    have hrep' : HeapRep c s bs ((xs ++ [q] ++ [p]) ++ r :: ys) := by simpa using h
    have hapart := h.apart
    rw [List.headD_cons, if_pos (by omega), (h.fields hrmem).2]
    apply runs_store (by omega)
    apply runs_load (by exact h.heapLo_range)
    dsimp only
    rw [word_setWord_of_disjoint (by omega), hhead, if_neg hne, if_pos (by omega),
      (h.fields hqmem).1]
    apply runs_store_last
    · dsimp only
      omega
    apply removed h
    · intro x hx
      exact (setWord_next hx hqmem).trans (setWord_prev hx hrmem)
    · constructor
      · rw [word_setWord_of_disjoint (by omega), word_setWord_of_disjoint (by omega), hhead, hhead']
      · refine ⟨b, (segment_append _ _ _ _).mpr ⟨?_, ?_⟩⟩
        · have hset : Segment (setWord s.bytes (r + 16) q) b (xs ++ [q]) p := by
            apply hleft.store
            intro x hx
            have := hapart x (hleftsub hx) r hrmem (hdisj x hx r List.mem_cons_self)
            omega
          exact hset.setNext hrep.not_mem_left (hapart.mono hleftsub) (by omega)
        · rw [List.getLastD_concat]
          apply (hright.setPrev hrep'.not_mem_right (hapart.mono hrightsub) (by omega)).store
          intro x hx
          have := hapart q hqmem x (hrightsub hx) (hdisj q (by simp) x hx)
          omega

theorem runs_removeFreeBlock (h : HeapRep c s bs (xs ++ p :: ys)) :
    Runs (removeFreeBlock c p) s (fun _ t => Removed c s bs xs p ys t) := by
  rcases List.eq_nil_or_concat' xs with rfl | ⟨zs, q, rfl⟩
  · exact runs_removeFreeBlock_head h
  · exact runs_removeFreeBlock_next h

/-- An insertion puts a free block at the head of the list; only links change. -/
theorem runs_insertFreeBlock (h : HeapRep c s bs fl) (hp : p ∉ fl)
    (hfree : ∃ z, (p, Block.mk z false) ∈ placed c.firstBlock bs) :
    Runs (insertFreeBlock c p) s (fun _ t => HeapRep c t bs (p :: fl) ∧ t.brk = s.brk ∧
      ∀ x, ¬ ListByte c (p :: fl) x → t.bytes x = s.bytes x) := by
  have hall : ∀ q ∈ p :: fl, ∃ z, (q, Block.mk z false) ∈ placed c.firstBlock bs := by
    intro q hq
    rcases List.mem_cons.mp hq with rfl | hq
    · exact hfree
    · exact h.free q hq
  have hnodup : (p :: fl).Nodup := List.nodup_cons.mpr ⟨hp, h.nodup⟩
  have hpb : c.firstBlock ≤ p ∧ p + 40 ≤ s.brk := by
    obtain ⟨z, hz⟩ := hfree
    have hb := placed_bounds hz
    have hsize := (h.tiles.of_mem_placed hz).2
    have := h.brk
    dsimp only at hb hsize
    omega
  have hapart : ∀ q ∈ fl, q + 24 ≤ p ∨ p + 24 ≤ q := by
    intro q hq
    obtain ⟨z, hz⟩ := hfree
    obtain ⟨w, hw⟩ := h.free q hq
    have hsize := (h.tiles.of_mem_placed hz).2
    have hsize' := (h.tiles.of_mem_placed hw).2
    have hne : p ≠ q := fun heq => hp (heq ▸ hq)
    have := placed_apart hz hw
    dsimp only at hsize hsize' this
    omega
  refine (h.listRep.runs_insertFreeBlock hpb hapart).mono ?_
  rintro _ ⟨m', _⟩ ⟨hlist, rfl, hm⟩
  exact ⟨h.relist hm hall hlist hnodup (List.Subset.refl _), rfl, hm⟩

end HeapRep
end Courses.MallocLab
