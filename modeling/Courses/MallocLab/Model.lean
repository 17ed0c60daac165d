import Courses.Lib.Bytes

/-!
# The explicit free list allocator

`lab5/mm.c` over the simulated memory of `memlib.c`: one heap of bytes between
`mem_heap_lo()` and `mem_brk`, read and written in 64-bit words. A load or a store
outside the heap stops the run, as does running out of memory, after which the
source exits. Pointers and sizes are 64-bit words and wrap.
-/
namespace Courses.MallocLab

open Courses.Lib

/-- The size of the simulated memory, 20 MB. -/
def MAX_HEAP : ℕ := 20 * 2 ^ 20

/-- What `mem_init` fixes: where the heap starts and the size of a page. The memory
comes from the C library's `malloc`, so it is aligned and ends below `2 ^ 64`. -/
structure Config where
  /-- `mem_start_brk`. -/
  heapLo : ℕ
  /-- `mem_max_addr`. -/
  maxAddr : ℕ
  pagesize : ℕ
  heapLo_pos : 0 < heapLo
  heapLo_aligned : 8 ∣ heapLo
  maxAddr_eq : maxAddr = heapLo + MAX_HEAP
  maxAddr_lt : maxAddr < 2 ^ 64
  pagesize_pos : 0 < pagesize
  pagesize_aligned : 8 ∣ pagesize

structure Heap where
  bytes : Mem
  /-- `mem_brk`, the first address past the heap. -/
  brk : ℕ

/-- Why a call does not return. -/
inductive Stop where
  /-- `mem_sbrk` failed; the source prints an error and exits. -/
  | outOfMemory
  /-- An access outside the heap. -/
  | fault
  /-- The bound on a loop ran out. -/
  | fuel
  deriving Repr, DecidableEq

abbrev HeapM := StateT Heap (Except Stop)

def stop {α : Type} (e : Stop) : HeapM α := fun _ => .error e

variable (c : Config)

/-- Load the word at `a`. -/
def load (a : ℕ) : HeapM ℕ := fun s =>
  if c.heapLo ≤ a ∧ a + 8 ≤ s.brk then .ok (word s.bytes a, s) else .error .fault

/-- Store the word `v` at `a`. -/
def store (a v : ℕ) : HeapM Unit := fun s =>
  if c.heapLo ≤ a ∧ a + 8 ≤ s.brk then .ok ((), { s with bytes := setWord s.bytes a v })
  else .error .fault

/-- `memcpy` between two places in the heap that do not overlap. -/
def memcpy (dst src n : ℕ) : HeapM Unit := fun s =>
  if c.heapLo ≤ dst ∧ dst + n ≤ s.brk ∧ c.heapLo ≤ src ∧ src + n ≤ s.brk then
    .ok ((), { s with bytes := copyBytes s.bytes dst src n })
  else .error .fault

/-- `mem_sbrk`: the old break, or `none` for -1. -/
def memSbrk (incr : ℕ) : HeapM (Option ℕ) := fun s =>
  if wadd s.brk incr > c.maxAddr then .ok (none, s)
  else .ok (some s.brk, { s with brk := wadd s.brk incr })

/-! ## Tags -/

def WORD_SIZE : ℕ := 8
def MIN_BLOCK_SIZE : ℕ := 32
def ALIGNMENT : ℕ := 8
def TAG_USED : ℕ := 1
def TAG_PRECEDING_USED : ℕ := 2

/-- `~x` on 64-bit words. -/
def complement (x : ℕ) : ℕ := 2 ^ 64 - 1 - x

def SIZE (x : ℕ) : ℕ := x &&& complement (ALIGNMENT - 1)

/-- The field `next` of a block. -/
def nextField (block : ℕ) : ℕ := wadd block 8

/-- The field `prev` of a block. -/
def prevField (block : ℕ) : ℕ := wadd block 16

/-! ## The free list -/

def searchLoop (reqSize : ℕ) : ℕ → ℕ → HeapM ℕ
  | 0, _ => stop .fuel
  | fuel + 1, freeBlock => do
    if freeBlock ≠ 0 then
      if SIZE (← load c freeBlock) ≥ reqSize then
        return freeBlock
      else
        searchLoop reqSize fuel (← load c (nextField freeBlock))
    else
      return 0

/-- The first free block of at least `reqSize` bytes, or NULL. The list cannot be
longer than the heap, which bounds the loop. -/
def searchFreeList (reqSize : ℕ) : HeapM ℕ := do
  searchLoop c reqSize ((← get).brk + 1) (← load c c.heapLo)

def insertFreeBlock (freeBlock : ℕ) : HeapM Unit := do
  let oldHead ← load c c.heapLo
  store c (nextField freeBlock) oldHead
  if oldHead ≠ 0 then
    store c (prevField freeBlock) (← load c (prevField oldHead))
    store c (prevField oldHead) freeBlock
  store c c.heapLo freeBlock

def removeFreeBlock (freeBlock : ℕ) : HeapM Unit := do
  let nextFree ← load c (nextField freeBlock)
  let prevFree ← load c (prevField freeBlock)
  if nextFree ≠ 0 then
    store c (prevField nextFree) prevFree
  if freeBlock = (← load c c.heapLo) then
    store c c.heapLo nextFree
  else if prevFree ≠ 0 then
    store c (nextField prevFree) nextFree

/-! ## Coalescing -/

/-- The loop over the preceding free blocks; it answers with the cursor and the
running size. -/
def coalescePreceding : ℕ → ℕ → ℕ → HeapM (ℕ × ℕ)
  | 0, _, _ => stop .fuel
  | fuel + 1, blockCursor, newSize => do
    if (← load c blockCursor) &&& TAG_PRECEDING_USED = 0 then
      let size := SIZE (← load c (wsub blockCursor WORD_SIZE))
      let freeBlock := wsub blockCursor size
      removeFreeBlock c freeBlock
      coalescePreceding fuel freeBlock (wadd newSize size)
    else
      return (blockCursor, newSize)

/-- The loop over the following free blocks. -/
def coalesceFollowing : ℕ → ℕ → ℕ → HeapM (ℕ × ℕ)
  | 0, _, _ => stop .fuel
  | fuel + 1, blockCursor, newSize => do
    if (← load c blockCursor) &&& TAG_USED = 0 then
      let size := SIZE (← load c blockCursor)
      removeFreeBlock c blockCursor
      coalesceFollowing fuel (wadd blockCursor size) (wadd newSize size)
    else
      return (blockCursor, newSize)

def coalesceFreeBlock (oldBlock : ℕ) : HeapM Unit := do
  let fuel := (← get).brk + 1
  let oldSize := SIZE (← load c oldBlock)
  let (newBlock, newSize) ← coalescePreceding c fuel oldBlock oldSize
  let (blockCursor, newSize) ← coalesceFollowing c fuel (wadd oldBlock oldSize) newSize
  if newSize ≠ oldSize then
    removeFreeBlock c oldBlock
    store c newBlock (newSize ||| TAG_PRECEDING_USED)
    store c (wsub blockCursor WORD_SIZE) (newSize ||| TAG_PRECEDING_USED)
    insertFreeBlock c newBlock

/-! ## Growth and start -/

/-- The bytes `requestMoreSpace` asks for: whole pages. -/
def totalSizeFor (reqSize : ℕ) : ℕ :=
  wmul (wsub (wadd reqSize c.pagesize) 1 / c.pagesize) c.pagesize

def requestMoreSpace (reqSize : ℕ) : HeapM Unit := do
  let totalSize := totalSizeFor c reqSize
  match ← memSbrk c totalSize with
  | none => stop .outOfMemory
  | some memSbrkResult =>
    let newBlock := wsub memSbrkResult WORD_SIZE
    let prevLastWordMask := (← load c newBlock) &&& TAG_PRECEDING_USED
    store c newBlock (totalSize ||| prevLastWordMask)
    store c (wadd newBlock (wsub totalSize WORD_SIZE)) (totalSize ||| prevLastWordMask)
    store c (wadd newBlock totalSize) TAG_USED
    insertFreeBlock c newBlock
    coalesceFreeBlock c newBlock

def mmInit : HeapM Unit := do
  let initSize := WORD_SIZE + MIN_BLOCK_SIZE + WORD_SIZE
  match ← memSbrk c initSize with
  | none => stop .outOfMemory
  | some _ =>
    let firstFreeBlock := wadd c.heapLo WORD_SIZE
    let totalSize := initSize - WORD_SIZE - WORD_SIZE
    store c firstFreeBlock (totalSize ||| TAG_PRECEDING_USED)
    store c (nextField firstFreeBlock) 0
    store c (prevField firstFreeBlock) 0
    store c (wadd firstFreeBlock (totalSize - WORD_SIZE)) (totalSize ||| TAG_PRECEDING_USED)
    let memHeapHi := wsub (← get).brk 1
    store c (wsub memHeapHi (WORD_SIZE - 1)) TAG_USED
    store c c.heapLo firstFreeBlock

/-! ## The interface -/

/-- The block size for a request: a header word more, rounded up. -/
def reqSizeFor (size : ℕ) : ℕ :=
  let size := wadd size WORD_SIZE
  if size ≤ MIN_BLOCK_SIZE then MIN_BLOCK_SIZE
  else wmul ALIGNMENT (wsub (wadd size ALIGNMENT) 1 / ALIGNMENT)

/-- Cut `reqSize` bytes off the block of `blockSize` bytes: the front is used, the
rest becomes a free block. -/
def splitBlock (block reqSize blockSize precedingBlockUseTag : ℕ) : HeapM Unit := do
  store c block (reqSize ||| precedingBlockUseTag)
  store c block ((← load c block) ||| TAG_USED)
  store c (wadd block reqSize) (wsub blockSize reqSize ||| TAG_PRECEDING_USED)
  store c (wadd block (wsub blockSize WORD_SIZE)) (wsub blockSize reqSize ||| TAG_PRECEDING_USED)
  insertFreeBlock c (wadd block reqSize)

/-- A free block of `reqSize` bytes, from the list or from new memory. -/
def obtainFreeBlock (reqSize : ℕ) : HeapM ℕ := do
  let ptrFreeBlock ← searchFreeList c reqSize
  if ptrFreeBlock = 0 then
    requestMoreSpace c reqSize
    searchFreeList c reqSize
  else
    return ptrFreeBlock

def mmMalloc (size : ℕ) : HeapM ℕ := do
  if size = 0 then
    return 0
  else
    let reqSize := reqSizeFor size
    let ptrFreeBlock ← obtainFreeBlock c reqSize
    let precedingBlockUseTag := (← load c ptrFreeBlock) &&& TAG_PRECEDING_USED
    let blockSize := SIZE (← load c ptrFreeBlock)
    removeFreeBlock c ptrFreeBlock
    if wsub blockSize reqSize ≥ MIN_BLOCK_SIZE then
      splitBlock c ptrFreeBlock reqSize blockSize precedingBlockUseTag
    else
      let nextBlock := wadd ptrFreeBlock blockSize
      store c nextBlock ((← load c nextBlock) ||| TAG_PRECEDING_USED)
      store c ptrFreeBlock ((← load c ptrFreeBlock) ||| TAG_USED)
    return wadd ptrFreeBlock WORD_SIZE

def mmFree (ptr : ℕ) : HeapM Unit := do
  let blockInfo := wsub ptr WORD_SIZE
  let payloadSize := SIZE (← load c blockInfo)
  let followingBlock := wadd blockInfo payloadSize
  store c followingBlock ((← load c followingBlock) &&& complement TAG_PRECEDING_USED)
  store c blockInfo ((← load c blockInfo) &&& complement TAG_USED)
  store c (wadd blockInfo (wsub payloadSize WORD_SIZE)) (← load c blockInfo)
  insertFreeBlock c blockInfo
  coalesceFreeBlock c blockInfo

/-- The first part of the in-place growth: take in the following block if it is free
and large enough. The answer is the block's size afterwards. -/
def growInPlace (blockInfo oldSize reqSize precedingBlockUseTag : ℕ) : HeapM ℕ := do
  let nextBlock := wadd blockInfo oldSize
  if (← load c nextBlock) &&& TAG_USED = 0 then
    let addSize := SIZE (← load c nextBlock)
    if wadd oldSize addSize ≥ reqSize then
      removeFreeBlock c nextBlock
      let oldSize := wadd oldSize addSize
      store c blockInfo (oldSize ||| precedingBlockUseTag)
      store c blockInfo ((← load c blockInfo) ||| TAG_USED)
      store c nextBlock 0
      let nextnextBlock := wadd blockInfo oldSize
      store c nextnextBlock ((← load c nextnextBlock) ||| TAG_PRECEDING_USED)
      return oldSize
    else
      return oldSize
  else
    return oldSize

def mmRealloc (ptr size : ℕ) : HeapM ℕ := do
  let blockInfo := wsub ptr WORD_SIZE
  let oldSize := SIZE (← load c blockInfo)
  let copySize := wsub oldSize WORD_SIZE
  if ptr = 0 then
    mmMalloc c size
  else if size = 0 then
    mmFree c ptr
    return 0
  else
    let reqSize := reqSizeFor size
    if reqSize = oldSize then
      return ptr
    else
      let precedingBlockUseTag := (← load c blockInfo) &&& TAG_PRECEDING_USED
      let oldSize ←
        if oldSize < reqSize then growInPlace c blockInfo oldSize reqSize precedingBlockUseTag
        else pure oldSize
      if reqSize ≤ oldSize then
        if wsub oldSize reqSize ≥ MIN_BLOCK_SIZE then
          splitBlock c blockInfo reqSize oldSize precedingBlockUseTag
          let nextBlock := wadd blockInfo oldSize
          store c nextBlock ((← load c nextBlock) &&& complement TAG_PRECEDING_USED)
        return ptr
      else
        let newPtr ← mmMalloc c size
        if newPtr = 0 then
          return 0
        else
          memcpy c newPtr ptr (if size < copySize then size else copySize)
          mmFree c ptr
          return newPtr

end Courses.MallocLab

/-!
# How blocks tile the heap

A heap is a sequence of blocks laid end to end after its first word. `Tiles`
states what the memory holds for them: a header for each, with the size and the
two tag bits, and a boundary tag at the end of each free one. It reads only those
words, so it survives every store elsewhere.
-/
namespace Courses.MallocLab

open Courses.Lib

structure Block where
  size : ℕ
  used : Bool
  deriving Repr, DecidableEq

/-- The bytes a sequence of blocks covers. -/
def span (bs : List Block) : ℕ := (bs.map Block.size).sum

/-- Whether the last block is in use; `preceding` where there is none. -/
def lastUsed (preceding : Bool) : List Block → Bool
  | [] => preceding
  | b :: bs => lastUsed b.used bs

/-- The blocks with the addresses they start at. -/
def placed (a : ℕ) : List Block → List (ℕ × Block)
  | [] => []
  | b :: bs => (a, b) :: placed (a + b.size) bs

/-- A header word. -/
def tagged (size : ℕ) (preceding used : Bool) : ℕ :=
  size + (2 * preceding.toNat + used.toNat)

/-- The memory from `a` on holds the blocks; `preceding` says whether the block just
before them is in use. -/
def Tiles (m : Mem) (a : ℕ) (preceding : Bool) : List Block → Prop
  | [] => True
  | b :: bs =>
    8 ∣ b.size ∧ MIN_BLOCK_SIZE ≤ b.size ∧ word m a = tagged b.size preceding b.used ∧
      (b.used = false → SIZE (word m (a + b.size - 8)) = b.size) ∧
        Tiles m (a + b.size) b.used bs

variable {m m' : Mem} {a p q : ℕ} {preceding : Bool} {b d : Block} {bs xs ys : List Block}

@[simp] theorem span_nil : span [] = 0 := rfl

@[simp] theorem span_cons (b : Block) (bs : List Block) : span (b :: bs) = b.size + span bs :=
  List.sum_cons

@[simp] theorem span_append (xs ys : List Block) : span (xs ++ ys) = span xs + span ys := by
  simp [span]

theorem lastUsed_append (preceding : Bool) (xs ys : List Block) :
    lastUsed preceding (xs ++ ys) = lastUsed (lastUsed preceding xs) ys := by
  induction xs generalizing preceding with
  | nil => rfl
  | cons x xs ih => exact ih x.used

@[simp] theorem lastUsed_concat (preceding : Bool) (xs : List Block) (b : Block) :
    lastUsed preceding (xs ++ [b]) = b.used :=
  lastUsed_append preceding xs [b]

theorem placed_append (a : ℕ) (xs ys : List Block) :
    placed a (xs ++ ys) = placed a xs ++ placed (a + span xs) ys := by
  induction xs generalizing a with
  | nil => rfl
  | cons x xs ih =>
    rw [List.cons_append, placed, placed, ih, span_cons, Nat.add_assoc]
    rfl

theorem mem_placed_middle (a : ℕ) (xs ys : List Block) (b : Block) :
    (a + span xs, b) ∈ placed a (xs ++ b :: ys) := by
  rw [placed_append]
  exact List.mem_append_right _ List.mem_cons_self

/-- Every block of the sequence is placed. -/
theorem map_snd_placed (a : ℕ) (bs : List Block) : (placed a bs).map Prod.snd = bs := by
  induction bs generalizing a with
  | nil => rfl
  | cons b bs ih => rw [placed, List.map_cons, ih]

/-- A placed block splits the sequence. -/
theorem exists_split_of_mem_placed (h : (p, b) ∈ placed a bs) :
    ∃ xs ys, bs = xs ++ b :: ys ∧ p = a + span xs := by
  induction bs generalizing a with
  | nil => exact absurd h List.not_mem_nil
  | cons d bs ih =>
    rcases List.mem_cons.mp h with heq | hmem
    · cases heq
      exact ⟨[], bs, rfl, rfl⟩
    · obtain ⟨xs, ys, rfl, rfl⟩ := ih hmem
      exact ⟨d :: xs, ys, rfl, by rw [span_cons, Nat.add_assoc]⟩

theorem placed_bounds (h : (p, b) ∈ placed a bs) : a ≤ p ∧ p + b.size ≤ a + span bs := by
  obtain ⟨xs, ys, rfl, rfl⟩ := exists_split_of_mem_placed h
  simp only [span_append, span_cons]
  omega

/-- Two placed blocks are the same block or do not overlap. -/
theorem placed_apart (hp : (p, b) ∈ placed a bs) (hq : (q, d) ∈ placed a bs) :
    (p = q ∧ b = d) ∨ p + b.size ≤ q ∨ q + d.size ≤ p := by
  obtain ⟨xs, ys, rfl, rfl⟩ := exists_split_of_mem_placed hp
  rw [placed_append, List.mem_append] at hq
  rcases hq with hq | hq
  · exact Or.inr (Or.inr (placed_bounds hq).2)
  · rcases List.mem_cons.mp hq with heq | hq
    · cases heq
      exact Or.inl ⟨rfl, rfl⟩
    · exact Or.inr (Or.inl (placed_bounds hq).1)

theorem tiles_append (xs ys : List Block) (a : ℕ) (preceding : Bool) :
    Tiles m a preceding (xs ++ ys) ↔
      Tiles m a preceding xs ∧ Tiles m (a + span xs) (lastUsed preceding xs) ys := by
  induction xs generalizing a preceding with
  | nil => simp [Tiles, lastUsed]
  | cons x xs ih =>
    simp only [List.cons_append, Tiles, lastUsed, span_cons, ih, and_assoc, Nat.add_assoc]

namespace Tiles

theorem of_mem_placed (h : Tiles m a preceding bs) (hp : (p, b) ∈ placed a bs) :
    8 ∣ b.size ∧ 32 ≤ b.size := by
  obtain ⟨xs, ys, rfl, rfl⟩ := exists_split_of_mem_placed hp
  rw [tiles_append] at h
  exact ⟨h.2.1, h.2.2.1⟩

theorem dvd_span (h : Tiles m a preceding bs) : 8 ∣ span bs := by
  induction bs generalizing a preceding with
  | nil => exact dvd_zero 8
  | cons b bs ih =>
    rw [span_cons]
    exact dvd_add h.1 (ih h.2.2.2.2)

/-- There are no more blocks than fit. -/
theorem length_le (h : Tiles m a preceding bs) : 32 * bs.length ≤ span bs := by
  induction bs generalizing a preceding with
  | nil => exact Nat.zero_le _
  | cons b bs ih =>
    have hb : 32 ≤ b.size := h.2.1
    have := ih h.2.2.2.2
    rw [span_cons, List.length_cons]
    omega

/-- Only the headers and the boundary tags of free blocks matter. -/
theorem congr (h : Tiles m a preceding bs)
    (hm : ∀ p b, (p, b) ∈ placed a bs → word m' p = word m p ∧
      (b.used = false → word m' (p + b.size - 8) = word m (p + b.size - 8))) :
    Tiles m' a preceding bs := by
  induction bs generalizing a preceding with
  | nil => trivial
  | cons b bs ih =>
    obtain ⟨hdvd, hmin, hhead, htail, hrest⟩ := h
    have hb := hm a b List.mem_cons_self
    refine ⟨hdvd, hmin, hb.1.trans hhead, fun hfree => ?_, ih hrest fun p d hp => ?_⟩
    · rw [hb.2 hfree]
      exact htail hfree
    · exact hm p d (List.mem_cons_of_mem _ hp)

/-- A change outside the blocks. -/
theorem frame (h : Tiles m a preceding bs)
    (hm : ∀ x, a ≤ x → x < a + span bs → m' x = m x) : Tiles m' a preceding bs := by
  refine h.congr fun p b hp => ?_
  have hb := placed_bounds hp
  have hsize := (h.of_mem_placed hp).2
  constructor
  · exact word_congr fun x _ _ => hm x (by omega) (by omega)
  · exact fun _ => word_congr fun x _ _ => hm x (by omega) (by omega)

end Tiles

/-! ## Header words -/

theorem tagged_bits_lt (preceding used : Bool) : 2 * preceding.toNat + used.toNat < 8 := by
  cases preceding <;> cases used <;> decide

theorem SIZE_eq {x : ℕ} (h : x < 2 ^ 64) : SIZE x = 8 * (x / 8) := by
  have hx : x = 8 * (x / 8) + x % 8 := by omega
  have hlow : x % 8 < 8 := Nat.mod_lt _ (by decide)
  have hmask : complement (ALIGNMENT - 1) / 8 = 2 ^ 61 - 1 := by decide
  have hzero : complement (ALIGNMENT - 1) % 8 = 0 := by decide
  have hk : x / 8 % 2 ^ 61 = x / 8 := Nat.mod_eq_of_lt (by omega)
  rw [SIZE]
  conv_lhs => rw [hx]
  rw [tagged_land _ _ _ hlow, hmask, hzero, Nat.and_two_pow_sub_one_eq_mod, hk, Nat.and_zero,
    Nat.add_zero]

section Tagged

variable {size : ℕ} {used : Bool}

theorem SIZE_tagged (hdvd : 8 ∣ size) (hlt : size < 2 ^ 64 - 8) :
    SIZE (tagged size preceding used) = size := by
  have hbits := tagged_bits_lt preceding used
  rw [SIZE_eq (by rw [tagged]; omega), tagged]
  omega

theorem tagged_land_used (hdvd : 8 ∣ size) :
    tagged size preceding used &&& TAG_USED = used.toNat := by
  obtain ⟨k, rfl⟩ := hdvd
  rw [tagged, tagged_land _ _ _ (tagged_bits_lt preceding used)]
  cases preceding <;> cases used <;> simp [TAG_USED]

theorem tagged_land_preceding (hdvd : 8 ∣ size) :
    tagged size preceding used &&& TAG_PRECEDING_USED = 2 * preceding.toNat := by
  obtain ⟨k, rfl⟩ := hdvd
  rw [tagged, tagged_land _ _ _ (tagged_bits_lt preceding used)]
  cases preceding <;> cases used <;> simp [TAG_PRECEDING_USED]

theorem tagged_lor_used (hdvd : 8 ∣ size) :
    tagged size preceding used ||| TAG_USED = tagged size preceding true := by
  obtain ⟨k, rfl⟩ := hdvd
  rw [tagged, tagged, tagged_lor _ _ _ (tagged_bits_lt preceding used) (by decide)]
  cases preceding <;> cases used <;> rfl

theorem tagged_lor_preceding (hdvd : 8 ∣ size) :
    tagged size preceding used ||| TAG_PRECEDING_USED = tagged size true used := by
  obtain ⟨k, rfl⟩ := hdvd
  rw [tagged, tagged, tagged_lor _ _ _ (tagged_bits_lt preceding used) (by decide)]
  cases preceding <;> cases used <;> rfl

theorem lor_preceding (hdvd : 8 ∣ size) (preceding : Bool) :
    size ||| 2 * preceding.toNat = tagged size preceding false := by
  obtain ⟨k, rfl⟩ := hdvd
  have h := tagged_lor k 0 (2 * preceding.toNat) (by decide) (by cases preceding <;> decide)
  rw [Nat.add_zero] at h
  rw [h, tagged]
  cases preceding <;> rfl

theorem tagged_land_not_preceding (hdvd : 8 ∣ size) (hlt : size < 2 ^ 64) :
    tagged size preceding used &&& complement TAG_PRECEDING_USED = tagged size false used := by
  obtain ⟨k, rfl⟩ := hdvd
  have hmask : complement TAG_PRECEDING_USED / 8 = 2 ^ 61 - 1 := by decide
  have hlow : complement TAG_PRECEDING_USED % 8 = 5 := by decide
  have hk : k % 2 ^ 61 = k := Nat.mod_eq_of_lt (by omega)
  rw [tagged, tagged, tagged_land _ _ _ (tagged_bits_lt preceding used), hmask, hlow,
    Nat.and_two_pow_sub_one_eq_mod, hk]
  cases preceding <;> cases used <;> rfl

theorem tagged_land_not_used (hdvd : 8 ∣ size) (hlt : size < 2 ^ 64) :
    tagged size preceding used &&& complement TAG_USED = tagged size preceding false := by
  obtain ⟨k, rfl⟩ := hdvd
  have hmask : complement TAG_USED / 8 = 2 ^ 61 - 1 := by decide
  have hlow : complement TAG_USED % 8 = 6 := by decide
  have hk : k % 2 ^ 61 = k := Nat.mod_eq_of_lt (by omega)
  rw [tagged, tagged, tagged_land _ _ _ (tagged_bits_lt preceding used), hmask, hlow,
    Nat.and_two_pow_sub_one_eq_mod, hk]
  cases preceding <;> cases used <;> rfl

end Tagged
end Courses.MallocLab
