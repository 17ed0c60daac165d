import Courses.Lib.LruCache
import Mathlib.Data.Int.CardIntervalMod
import Mathlib.Tactic

/-!
# Measuring a cache

`cache-test-skel.c` of lab 4. The cache is only known by what its two functions promise: it is a
set-associative cache that replaces the least recently used block. An `int` that grows too large
has no result, and neither has a loop that does not end.
-/
namespace Courses.Exercises.CacheGeometry

open Courses.Lib Lru

/-- `access_cache`, which returns whether the access hits, and `flush_cache`. -/
structure MysteryCache (σ : Type) where
  accessCache : ℕ → σ → Bool × σ
  flushCache : σ → σ

/-- The sum of two `int`s. -/
def add (a b : ℕ) : Option ℕ := if a + b < 2 ^ 31 then some (a + b) else none

section Functions

variable {σ : Type} (m : MysteryCache σ)

/-- The loop of `get_block_size`, of which at most `fuel` rounds are run. -/
def blockSizeLoop : ℕ → ℕ → ℕ → σ → Option (ℕ × σ)
  | 0, _, _, _ => none
  | fuel + 1, addr, blockSize, s => do
    let blockSize ← add blockSize 1
    let addr ← add addr 1
    let (hit, s) := m.accessCache addr s
    if !hit then return (blockSize, s)
    blockSizeLoop fuel addr blockSize s

def getBlockSize (fuel : ℕ) (s : σ) : Option (ℕ × σ) :=
  let addr := 0
  let blockSize := 0
  blockSizeLoop m fuel addr blockSize (m.accessCache addr s).2

/-- The inner loop of `get_cache_size`. -/
def sizeAccesses (blockSize sz : ℕ) : ℕ → ℕ → σ → Option σ
  | 0, _, _ => none
  | fuel + 1, i, s =>
    if i ≤ sz then do
      let s := (m.accessCache i s).2
      let i ← add i blockSize
      sizeAccesses blockSize sz fuel i s
    else some s

/-- The outer loop, with `fuel` rounds of the inner loop in each of its rounds. -/
def cacheSizeLoop (blockSize innerFuel : ℕ) : ℕ → ℕ → σ → Option (ℕ × σ)
  | 0, _, _ => none
  | fuel + 1, sz, s =>
    let (hit, s) := m.accessCache 0 s
    if hit then do
      let sz ← add sz blockSize
      let i := blockSize
      let s ← sizeAccesses m blockSize sz innerFuel i s
      cacheSizeLoop blockSize innerFuel fuel sz s
    else some (sz, s)

def getCacheSize (fuel blockSize : ℕ) (s : σ) : Option (ℕ × σ) :=
  let sz := 0
  let s := m.flushCache s
  let s := (m.accessCache 0 s).2
  cacheSizeLoop m blockSize fuel fuel sz s

/-- The inner loop of `get_cache_assoc`. -/
def assocAccesses (cacheSize assoc : ℕ) : ℕ → ℕ → ℕ → σ → Option σ
  | 0, _, _, _ => none
  | fuel + 1, addr, i, s =>
    if i ≤ assoc then do
      let addr ← add addr cacheSize
      let s := (m.accessCache addr s).2
      let i ← add i 1
      assocAccesses cacheSize assoc fuel addr i s
    else some s

def cacheAssocLoop (cacheSize innerFuel : ℕ) : ℕ → ℕ → σ → Option (ℕ × σ)
  | 0, _, _ => none
  | fuel + 1, assoc, s =>
    let (hit, s) := m.accessCache 0 s
    if hit then do
      let assoc ← add assoc 1
      let addr := 0
      let i := 1
      let s ← assocAccesses m cacheSize assoc innerFuel addr i s
      cacheAssocLoop cacheSize innerFuel fuel assoc s
    else some (assoc, s)

def getCacheAssoc (fuel cacheSize : ℕ) (s : σ) : Option (ℕ × σ) :=
  let s := m.flushCache s
  let s := (m.accessCache 0 s).2
  let assoc := 0
  cacheAssocLoop m cacheSize fuel fuel assoc s

end Functions

/-! ## The cache behind the functions -/

/-- The size of the blocks, the number of sets, and the places in a set. -/
structure Geometry where
  blockSize : ℕ
  sets : ℕ
  ways : ℕ
  blockSize_pos : 0 < blockSize
  sets_pos : 0 < sets
  ways_pos : 0 < ways

namespace Geometry

def block (g : Geometry) (addr : ℕ) : ℕ := addr / g.blockSize

def setOf (g : Geometry) (block : ℕ) : ℕ := block % g.sets

def size (g : Geometry) : ℕ := g.blockSize * g.sets * g.ways

end Geometry

/-- The functions behave as a cache, whose contents `view` shows. -/
structure Behaves {σ : Type} (m : MysteryCache σ) (g : Geometry)
    (view : σ → Cache g.setOf g.ways) : Prop where
  hit : ∀ addr s, (m.accessCache addr s).1 = (view s).hits (g.block addr)
  access : ∀ addr s, view (m.accessCache addr s).2 = (view s).use (g.block addr)
  flush : ∀ s, view (m.flushCache s) = Cache.cold

/-- Every address that the functions compute is an `int`. -/
structure InRange (g : Geometry) : Prop where
  size : g.size + g.blockSize < 2 ^ 31
  assoc : g.ways * g.size < 2 ^ 31

section Rounds

variable {σ : Type} {m : MysteryCache σ} {g : Geometry} {view : σ → Cache g.setOf g.ways}

theorem add_ok {a b : ℕ} (h : a + b < 2 ^ 31) : add a b = some (a + b) := if_pos h

theorem useAll_cons (c : Cache g.setOf g.ways) (b : ℕ) (bs : List ℕ) :
    c.useAll (b :: bs) = (c.use b).useAll bs := rfl

/-! ## The size of a block -/

/-- Only the block 0 is in the cache, and it was used last. -/
structure OnlyFirst (c : Cache g.setOf g.ways) : Prop where
  first : ∃ c' : Cache g.setOf g.ways, c = c'.use 0
  only : ∀ b, c.hits b = true → b = 0

theorem OnlyFirst.hits {c : Cache g.setOf g.ways} (h : OnlyFirst c) : c.hits 0 = true := by
  obtain ⟨c', rfl⟩ := h.first
  have hiff := Cache.hits_useAll_iff c' 0 [] List.not_mem_nil
  exact hiff.mpr g.ways_pos

theorem OnlyFirst.use {c : Cache g.setOf g.ways} (h : ∀ b, c.hits b = true → b = 0) :
    OnlyFirst (c.use 0) := by
  refine ⟨⟨c, rfl⟩, ?_⟩
  intro b hb
  cases Cache.hits_use hb with
  | inl heq => exact heq
  | inr hold => exact h b hold

/-- The loop ends at the first address of the next block. -/
theorem blockSizeLoop_ok (hm : Behaves m g view) (hrange : InRange g) (fuel : ℕ) :
    ∀ (addr : ℕ) (s : σ), addr < g.blockSize → g.blockSize ≤ addr + fuel → OnlyFirst (view s) →
    ∃ s', blockSizeLoop m fuel addr addr s = some (g.blockSize, s') := by
  have hsize : g.blockSize < 2 ^ 31 := by
    have hlarge := hrange.size
    omega
  induction fuel with
  | zero =>
    intro addr s hlt hle _
    omega
  | succ fuel ih =>
    intro addr s hlt hle honly
    simp only [blockSizeLoop, add_ok (show addr + 1 < 2 ^ 31 by omega), Option.bind_eq_bind,
      Option.bind_some, hm.hit]
    by_cases hlast : addr + 1 = g.blockSize
    · have hblock : g.block (addr + 1) = 1 := by
        rw [hlast, Geometry.block, Nat.div_self g.blockSize_pos]
      have hmiss : (view s).hits 1 = false := by
        by_contra hhit
        have hzero := honly.only 1 (by simpa using hhit)
        omega
      rw [hblock, hmiss, hlast]
      exact ⟨(m.accessCache g.blockSize s).2, rfl⟩
    · have hblock : g.block (addr + 1) = 0 := Nat.div_eq_of_lt (by omega)
      rw [hblock, honly.hits]
      apply ih (addr + 1) _ (by omega) (by omega)
      rw [hm.access, hblock]
      exact OnlyFirst.use honly.only

theorem getBlockSize_ok (hm : Behaves m g view) (hrange : InRange g) {fuel : ℕ}
    (hfuel : g.blockSize ≤ fuel) {s : σ} (hcold : view s = Cache.cold) :
    ∃ s', getBlockSize m fuel s = some (g.blockSize, s') := by
  apply blockSizeLoop_ok hm hrange fuel 0 _ g.blockSize_pos (by omega)
  have hblock : g.block 0 = 0 := Nat.zero_div g.blockSize
  rw [hm.access, hblock, hcold]
  apply OnlyFirst.use
  intro b hb
  rw [Cache.hits_cold] at hb
  cases hb

/-! ## Rounds -/

/-- The state at the head of an outer loop: the block 0 and then `bs` were used last. -/
def Probed (view : σ → Cache g.setOf g.ways) (bs : List ℕ) (s : σ) : Prop :=
  ∃ c : Cache g.setOf g.ways, view s = (c.use 0).useAll bs

theorem Probed.hit {bs : List ℕ} {s : σ} (hm : Behaves m g view) (h : Probed view bs s)
    (hbs : 0 ∉ bs) :
    (m.accessCache 0 s).1 = true ↔ (Cache.rivals g.setOf 0 bs).card < g.ways := by
  obtain ⟨c, hview⟩ := h
  have hblock : g.block 0 = 0 := Nat.zero_div g.blockSize
  rw [hm.hit, hblock, hview]
  exact Cache.hits_useAll_iff c 0 bs hbs

/-- The access of the loop's condition, and then the accesses of one round. -/
theorem Probed.next {bs : List ℕ} {s s' : σ} (hm : Behaves m g view)
    (h : view s' = (view (m.accessCache 0 s).2).useAll bs) : Probed view bs s' := by
  have hblock : g.block 0 = 0 := Nat.zero_div g.blockSize
  rw [hm.access, hblock] at h
  exact ⟨view s, h⟩

theorem probed_flush {s : σ} (hm : Behaves m g view) :
    Probed view [] (m.accessCache 0 (m.flushCache s)).2 := by
  apply Probed.next hm (s := m.flushCache s)
  rfl

/-! ## The size of the cache -/

theorem sizeAccesses_ok (hm : Behaves m g view) {n : ℕ} (hn : (n + 1) * g.blockSize < 2 ^ 31)
    (k : ℕ) : ∀ (fuel j : ℕ) (s : σ), j + k = n + 1 → k < fuel →
    ∃ s', sizeAccesses m g.blockSize (n * g.blockSize) fuel (j * g.blockSize) s = some s' ∧
      view s' = (view s).useAll (List.range' j k) := by
  induction k with
  | zero =>
    intro fuel j s hj hfuel
    obtain ⟨fuel, rfl⟩ := Nat.exists_eq_succ_of_ne_zero (Nat.ne_of_gt hfuel)
    have hexit : ¬j * g.blockSize ≤ n * g.blockSize := by
      rw [Nat.mul_le_mul_right_iff g.blockSize_pos]
      omega
    exact ⟨s, by rw [sizeAccesses, if_neg hexit], rfl⟩
  | succ k ih =>
    intro fuel j s hj hfuel
    obtain ⟨fuel, rfl⟩ := Nat.exists_eq_succ_of_ne_zero (Nat.ne_zero_of_lt hfuel)
    have hloop : j * g.blockSize ≤ n * g.blockSize := Nat.mul_le_mul_right _ (by omega)
    have hnext : (j + 1) * g.blockSize ≤ (n + 1) * g.blockSize := Nat.mul_le_mul_right _ (by omega)
    have hsum : j * g.blockSize + g.blockSize = (j + 1) * g.blockSize := by rw [Nat.succ_mul]
    obtain ⟨s', hrun, hview⟩ := ih fuel (j + 1) (m.accessCache (j * g.blockSize) s).2 (by omega)
      (by omega)
    refine ⟨s', ?_, ?_⟩
    · rw [sizeAccesses, if_pos hloop, add_ok (by omega), hsum]
      exact hrun
    · have hblock : g.block (j * g.blockSize) = j := Nat.mul_div_cancel j g.blockSize_pos
      rw [hview, hm.access, hblock, List.range'_succ, useAll_cons]

/-- Among the first blocks, those of the set 0 are the multiples of the number of sets. -/
theorem card_rivals_range (g : Geometry) (k : ℕ) :
    (Cache.rivals g.setOf 0 (List.range' 1 k)).card = k / g.sets := by
  have hrivals : Cache.rivals g.setOf 0 (List.range' 1 k) =
      (Finset.Ioc 0 k).filter fun b => g.sets ∣ b := by
    ext b
    rw [Cache.mem_rivals, List.mem_range'_1, Finset.mem_filter, Finset.mem_Ioc, Geometry.setOf,
      Geometry.setOf, Nat.zero_mod, Nat.dvd_iff_mod_eq_zero]
    omega
  rw [hrivals, Nat.Ioc_filter_dvd_card_eq_div]

theorem cacheSizeLoop_ok (hm : Behaves m g view) (hrange : InRange g) {innerFuel : ℕ}
    (hinner : g.sets * g.ways < innerFuel) (fuel : ℕ) : ∀ (k : ℕ) (s : σ),
    k ≤ g.sets * g.ways → g.sets * g.ways < k + fuel → Probed view (List.range' 1 k) s →
    ∃ s', cacheSizeLoop m g.blockSize innerFuel fuel (k * g.blockSize) s = some (g.size, s') := by
  induction fuel with
  | zero =>
    intro k s hle hlt _
    omega
  | succ fuel ih =>
    intro k s hle hlt hprobed
    have hhit := hprobed.hit hm (by simp)
    rw [card_rivals_range, Nat.div_lt_iff_lt_mul g.sets_pos, Nat.mul_comm] at hhit
    simp only [cacheSizeLoop]
    by_cases hmore : k < g.sets * g.ways
    · have hhit := hhit.mpr hmore
      have hlarge : (k + 1 + 1) * g.blockSize < 2 ^ 31 := by
        have hbound : (k + 1 + 1) * g.blockSize ≤ (g.sets * g.ways + 1) * g.blockSize :=
          Nat.mul_le_mul_right _ (by omega)
        have hsize : (g.sets * g.ways + 1) * g.blockSize = g.size + g.blockSize := by
          rw [Geometry.size]
          ring
        have hint := hrange.size
        omega
      have hsum : k * g.blockSize + g.blockSize = (k + 1) * g.blockSize := by rw [Nat.succ_mul]
      obtain ⟨s', hrun, hview⟩ := sizeAccesses_ok hm hlarge (k + 1) innerFuel 1
        (m.accessCache 0 s).2 (by omega) (by omega)
      rw [Nat.one_mul] at hrun
      have hadd : add (k * g.blockSize) g.blockSize = some ((k + 1) * g.blockSize) := by
        rw [← hsum]
        apply add_ok
        have hless : (k + 1) * g.blockSize ≤ (k + 1 + 1) * g.blockSize :=
          Nat.mul_le_mul_right _ (by omega)
        omega
      simp only [hhit, if_true, hadd, Option.bind_eq_bind, Option.bind_some, hrun]
      exact ih (k + 1) s' (by omega) (by omega) (Probed.next hm hview)
    · have hk : k = g.sets * g.ways := by omega
      have hhit := Bool.eq_false_iff.mpr (hhit.not.mpr hmore)
      refine ⟨(m.accessCache 0 s).2, ?_⟩
      simp only [hhit, Bool.false_eq_true, if_false, hk, Geometry.size]
      rw [Nat.mul_comm, Nat.mul_assoc]

theorem getCacheSize_ok (hm : Behaves m g view) (hrange : InRange g) {fuel : ℕ}
    (hfuel : g.sets * g.ways < fuel) (s : σ) :
    ∃ s', getCacheSize m fuel g.blockSize s = some (g.size, s') := by
  have hloop := cacheSizeLoop_ok hm hrange hfuel fuel 0 _ (Nat.zero_le _) (by omega)
    (probed_flush hm (s := s))
  rw [Nat.zero_mul] at hloop
  exact hloop

/-! ## The associativity -/

/-- The block at the address `i * g.size`. -/
def spaced (g : Geometry) (i : ℕ) : ℕ := i * (g.sets * g.ways)

theorem block_mul_size (g : Geometry) (i : ℕ) : g.block (i * g.size) = spaced g i := by
  have hsize : i * g.size = spaced g i * g.blockSize := by
    rw [Geometry.size, spaced]
    ring
  rw [Geometry.block, hsize, Nat.mul_div_cancel _ g.blockSize_pos]

theorem assocAccesses_ok (hm : Behaves m g view) {n : ℕ} (hn : n * g.size < 2 ^ 31)
    (hn' : n + 1 < 2 ^ 31) (k : ℕ) : ∀ (fuel j : ℕ) (s : σ), j + k = n → k < fuel →
    ∃ s', assocAccesses m g.size n fuel (j * g.size) (j + 1) s = some s' ∧
      view s' = (view s).useAll ((List.range' (j + 1) k).map (spaced g)) := by
  induction k with
  | zero =>
    intro fuel j s hj hfuel
    obtain ⟨fuel, rfl⟩ := Nat.exists_eq_succ_of_ne_zero (Nat.ne_of_gt hfuel)
    exact ⟨s, by rw [assocAccesses, if_neg (by omega)], rfl⟩
  | succ k ih =>
    intro fuel j s hj hfuel
    obtain ⟨fuel, rfl⟩ := Nat.exists_eq_succ_of_ne_zero (Nat.ne_zero_of_lt hfuel)
    have hnext : (j + 1) * g.size ≤ n * g.size := Nat.mul_le_mul_right _ (by omega)
    have hsum : j * g.size + g.size = (j + 1) * g.size := by rw [Nat.succ_mul]
    obtain ⟨s', hrun, hview⟩ := ih fuel (j + 1) (m.accessCache ((j + 1) * g.size) s).2 (by omega)
      (by omega)
    refine ⟨s', ?_, ?_⟩
    · rw [assocAccesses, if_pos (by omega), add_ok (by omega), hsum]
      simp only [Option.bind_eq_bind, Option.bind_some, add_ok (show j + 1 + 1 < 2 ^ 31 by omega)]
      exact hrun
    · rw [hview, hm.access, block_mul_size, List.range'_succ, List.map_cons, useAll_cons]

/-- All these blocks are in the set 0, and they are different. -/
theorem card_rivals_spaced (g : Geometry) (k : ℕ) :
    (Cache.rivals g.setOf 0 ((List.range' 1 k).map (spaced g))).card = k := by
  have hpos : 0 < g.sets * g.ways := Nat.mul_pos g.sets_pos g.ways_pos
  have hinj : Function.Injective (spaced g) := fun i j h => Nat.eq_of_mul_eq_mul_right hpos h
  have hrivals : Cache.rivals g.setOf 0 ((List.range' 1 k).map (spaced g)) =
      ((List.range' 1 k).map (spaced g)).toFinset := by
    ext b
    rw [Cache.mem_rivals, List.mem_toFinset, and_iff_left_iff_imp]
    intro hb
    obtain ⟨i, _, rfl⟩ := List.mem_map.mp hb
    rw [Geometry.setOf, Geometry.setOf, spaced, Nat.mul_left_comm, Nat.mul_mod_right, Nat.zero_mod]
  rw [hrivals, List.toFinset_card_of_nodup (List.Nodup.map hinj List.nodup_range'), List.length_map,
    List.length_range']

theorem cacheAssocLoop_ok (hm : Behaves m g view) (hrange : InRange g) {innerFuel : ℕ}
    (hinner : g.ways < innerFuel) (fuel : ℕ) : ∀ (k : ℕ) (s : σ), k ≤ g.ways →
    g.ways < k + fuel → Probed view ((List.range' 1 k).map (spaced g)) s →
    ∃ s', cacheAssocLoop m g.size innerFuel fuel k s = some (g.ways, s') := by
  have hpos : 0 < g.sets * g.ways := Nat.mul_pos g.sets_pos g.ways_pos
  have hways : g.ways + 1 < 2 ^ 31 := by
    have hle : g.ways ≤ g.size := Nat.le_mul_of_pos_left _ (Nat.mul_pos g.blockSize_pos g.sets_pos)
    have hint := hrange.size
    have hblock := g.blockSize_pos
    omega
  induction fuel with
  | zero =>
    intro k s hle hlt _
    omega
  | succ fuel ih =>
    intro k s hle hlt hprobed
    have hnot : 0 ∉ (List.range' 1 k).map (spaced g) := by
      intro hmem
      obtain ⟨i, hi, hzero⟩ := List.mem_map.mp hmem
      have hi' := List.mem_range'_1.mp hi
      rw [spaced, Nat.mul_eq_zero] at hzero
      omega
    have hhit := hprobed.hit hm hnot
    rw [card_rivals_spaced] at hhit
    simp only [cacheAssocLoop]
    by_cases hmore : k < g.ways
    · have hhit := hhit.mpr hmore
      have hlarge : (k + 1) * g.size < 2 ^ 31 := by
        have hbound : (k + 1) * g.size ≤ g.ways * g.size := Nat.mul_le_mul_right _ hmore
        have hint := hrange.assoc
        omega
      obtain ⟨s', hrun, hview⟩ := assocAccesses_ok hm hlarge (by omega) (k + 1) innerFuel 0
        (m.accessCache 0 s).2 (by omega) (by omega)
      rw [Nat.zero_mul, Nat.zero_add] at hrun
      simp only [hhit, if_true, add_ok (show k + 1 < 2 ^ 31 by omega), Option.bind_eq_bind,
        Option.bind_some, hrun]
      exact ih (k + 1) s' (by omega) (by omega) (Probed.next hm hview)
    · have hk : k = g.ways := by omega
      have hhit := Bool.eq_false_iff.mpr (hhit.not.mpr hmore)
      refine ⟨(m.accessCache 0 s).2, ?_⟩
      simp only [hhit, Bool.false_eq_true, if_false, hk]

theorem getCacheAssoc_ok (hm : Behaves m g view) (hrange : InRange g) {fuel : ℕ}
    (hfuel : g.ways < fuel) (s : σ) :
    ∃ s', getCacheAssoc m fuel g.size s = some (g.ways, s') :=
  cacheAssocLoop_ok hm hrange hfuel fuel 0 _ (Nat.zero_le _) (by omega) (probed_flush hm (s := s))

/-- The three functions return the geometry of the cache, and their loops end. -/
theorem measures_geometry (hm : Behaves m g view) (hrange : InRange g) {s : σ}
    (hcold : view s = Cache.cold) :
    ∃ rounds, ∀ fuel ≥ rounds,
      (∃ s', getBlockSize m fuel s = some (g.blockSize, s')) ∧
      (∀ s, ∃ s', getCacheSize m fuel g.blockSize s = some (g.size, s')) ∧
      (∀ s, ∃ s', getCacheAssoc m fuel g.size s = some (g.ways, s')) := by
  refine ⟨g.blockSize + g.sets * g.ways + 1, ?_⟩
  intro fuel hfuel
  have hways : g.ways ≤ g.sets * g.ways := Nat.le_mul_of_pos_left _ g.sets_pos
  refine ⟨?_, ?_, ?_⟩
  · exact getBlockSize_ok hm hrange (by omega) hcold
  · intro s
    exact getCacheSize_ok hm hrange (by omega) s
  · intro s
    exact getCacheAssoc_ok hm hrange (by omega) s

/-- The cache itself. -/
def lruCache (g : Geometry) : MysteryCache (Cache g.setOf g.ways) where
  accessCache := fun addr c => (c.hits (g.block addr), c.use (g.block addr))
  flushCache := fun _ => Cache.cold

theorem behaves_lruCache (g : Geometry) : Behaves (lruCache g) g id where
  hit := fun _ _ => rfl
  access := fun _ _ => rfl
  flush := fun _ => rfl

/-- A cache with 64 bytes: two sets with two blocks of 16 bytes. -/
def smallGeometry : Geometry where
  blockSize := 16
  sets := 2
  ways := 2
  blockSize_pos := Nat.succ_pos 15
  sets_pos := Nat.succ_pos 1
  ways_pos := Nat.succ_pos 1

theorem measures_geometry_small :
    ∃ rounds, ∀ fuel ≥ rounds,
      (∃ s', getBlockSize (lruCache smallGeometry) fuel Cache.cold = some (16, s')) ∧
      (∀ s, ∃ s', getCacheSize (lruCache smallGeometry) fuel 16 s = some (64, s')) ∧
      (∀ s, ∃ s', getCacheAssoc (lruCache smallGeometry) fuel 64 s = some (2, s')) :=
  measures_geometry (behaves_lruCache smallGeometry) ⟨by decide, by decide⟩ rfl

end Rounds

end Courses.Exercises.CacheGeometry
