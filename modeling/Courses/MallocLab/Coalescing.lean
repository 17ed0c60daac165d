import Courses.MallocLab.Client

/-!
# The words a call touches

A load or a store outside the heap stops a call with a fault. In a heap that a client
has brought about none of its calls faults, but for one: `mm_realloc` reads the header
before the pointer it is given, and only then asks whether the pointer is NULL.
-/
namespace Courses.MallocLab

open Courses.Lib

variable {c : Config} {s s₀ : Client} {a : Action} {size : ℕ}

/-- The calls of a client on pointers it holds, where `mm_realloc` may also be given NULL. -/
def Callable (c : Config) (s : Client) : Action → Prop
  | .malloc size => size ≠ 0 → NoWrap c s.heap size
  | .free ptr => ptr ∈ s.live.map Prod.fst
  | .realloc ptr size =>
    (ptr = 0 ∨ ptr ∈ s.live.map Prod.fst) ∧ (size ≠ 0 → NoWrap c s.heap size)
  | .write _ _ => False

/-- The call stays inside the heap, and on NULL `mm_realloc` is `mm_malloc`. -/
structure TouchesOnlyHeap (c : Config) (s : Client) (a : Action) : Prop where
  inside : perform c s a ≠ .error .fault
  null : ∀ size, a = .realloc 0 size → mmRealloc c 0 size s.heap = mmMalloc c size s.heap

/-- The header before NULL lies outside every heap. -/
theorem mmRealloc_null (c : Config) (h : Heap) (hbrk : h.brk < 2 ^ 64) (size : ℕ) :
    mmRealloc c 0 size h = .error .fault := by
  have haddr : wsub 0 WORD_SIZE = 2 ^ 64 - 8 := by decide
  have hload : load c (wsub 0 WORD_SIZE) h = .error .fault := by
    rw [load, haddr]
    exact if_neg (by omega)
  change (load c (wsub 0 WORD_SIZE) h).bind _ = _
  rw [hload]
  rfl

theorem Inv.brk_lt (h : Inv c s) : s.heap.brk < 2 ^ 64 := by
  obtain ⟨U, ⟨bs, fl, hrep, -⟩, -⟩ := h
  exact hrep.brk_lt

theorem permitted_of_callable (ha : Callable c s a) (hnull : ¬ ∃ size, a = .realloc 0 size) :
    Permitted c s a := by
  cases a with
  | malloc size => exact ha
  | free ptr => exact ha
  | realloc ptr size =>
    refine ⟨ha.1.resolve_left ?_, ha.2⟩
    rintro rfl
    exact hnull ⟨size, rfl⟩
  | write x v => exact ha.elim

theorem Inv.touchesOnlyHeap (hinv : Inv c s) (ha : Callable c s a)
    (hnull : ¬ ∃ size, a = .realloc 0 size) : TouchesOnlyHeap c s a := by
  constructor
  · obtain ⟨t, ht⟩ | hmem := hinv.progress (permitted_of_callable ha hnull)
    · rw [ht]
      simp
    · rw [hmem]
      simp
  · exact fun size heq => absurd ⟨size, heq⟩ hnull

theorem Inv.not_touchesOnlyHeap_null (hinv : Inv c s) (size : ℕ) :
    ¬ TouchesOnlyHeap c s (.realloc 0 size) := by
  intro h
  apply h.inside
  change (mmRealloc c 0 size s.heap).map _ = _
  rw [mmRealloc_null c s.heap hinv.brk_lt size]
  rfl

/-- In every heap that a client brings about, a call touches only the heap unless it is
`mm_realloc` on NULL. -/
theorem touchesOnlyHeap_iff {m : Mem} (h₀ : initial c m = .ok s₀)
    (hs : Reaches (step c) (Permitted c) s₀ s) (ha : Callable c s a) :
    TouchesOnlyHeap c s a ↔ ¬ ∃ size, a = .realloc 0 size := by
  have hinv := Inv.of_reaches (Inv.of_initial h₀) hs
  constructor
  · rintro h ⟨size, rfl⟩
    exact hinv.not_touchesOnlyHeap_null size h
  · exact hinv.touchesOnlyHeap ha

theorem touchesOnlyHeap_iff_demo :
    ∃ s₀ s, initial demo (fun _ => 0) = .ok s₀ ∧ Reaches (step demo) (Permitted demo) s₀ s ∧
      s.live = [(104, 8)] ∧
        (TouchesOnlyHeap demo s (.free 104) ↔ ¬ ∃ size, Action.free 104 = .realloc 0 size) := by
  obtain ⟨s₀, s, h₀, hreach, hl⟩ := reaches_demo
  have ha : Callable demo s (.free 104) := by
    change 104 ∈ s.live.map Prod.fst
    rw [hl]
    decide
  exact ⟨s₀, s, h₀, hreach, hl, touchesOnlyHeap_iff h₀ hreach ha⟩

/-- `mm_realloc(NULL, 24)` on a new heap. -/
theorem not_touchesOnlyHeap_null :
    ∃ s₀, initial demo (fun _ => 0) = .ok s₀ ∧ Callable demo s₀ (.realloc 0 24) ∧
      ¬ TouchesOnlyHeap demo s₀ (.realloc 0 24) := by
  have hinit : (initial demo (fun _ => 0)).toOption.map (fun s => decide (NoWrap demo s.heap 24)) =
      some true := by
    decide +kernel
  obtain ⟨s₀, h₀, hwrap⟩ := exists_initial_of_map hinit
  refine ⟨s₀, h₀, ⟨Or.inl rfl, fun _ => of_decide_eq_true hwrap⟩, ?_⟩
  exact (Inv.of_initial h₀).not_touchesOnlyHeap_null 24

end Courses.MallocLab

/-!
# Full coalescing

Released memory and new memory go through `coalesceFreeBlock`, and the rest that
`mm_malloc` cuts off a free block lies before a used one. The rest that `mm_realloc`
cuts off a used block does not go through it: the block after it may be free.
-/
namespace Courses.MallocLab

open Courses.Lib

variable {c : Config} {s s' : Client} {h : Heap} {bs : List Block} {fl : List ℕ} {a : Action}

/-- A consistent heap has the blocks that its headers describe, and no others. -/
theorem Consistent.heapBlocks_eq (hcon : Consistent c h bs fl) : heapBlocks c h = bs := by
  have htiled := hcon.tiled
  apply blocksFrom_eq _ (by rw [Config.firstBlock]; omega) (by omega)
  intro p b hp
  obtain ⟨hsize, -, hmin⟩ := hcon.size p b hp
  rw [MIN_BLOCK_SIZE] at hmin
  have hword : word h.bytes p &&& TAG_USED = b.used.toNat := hcon.used p b hp
  exact ⟨hsize, by omega, hword⟩

/-- The heap is consistent, and of two neighbours in it one is in use. -/
def FullyCoalesced (c : Config) (h : Heap) : Prop :=
  ∃ bs fl, Consistent c h bs fl ∧ NoAdjacentFree bs

theorem FullyCoalesced.coalesced (hfull : FullyCoalesced c h) : Coalesced c h := by
  obtain ⟨bs, fl, hcon, hbs⟩ := hfull
  rw [Coalesced, hcon.heapBlocks_eq]
  exact hbs

/-- The call is an `mm_realloc` that cuts a block which a free one follows. -/
def CutsFree (s : Client) : Action → Prop
  | .realloc ptr size => size ≠ 0 ∧ CutsBeforeFree s.heap (ptr - 8) size
  | _ => False

instance (s : Client) : (a : Action) → Decidable (CutsFree s a)
  | .malloc _ => inferInstanceAs (Decidable False)
  | .free _ => inferInstanceAs (Decidable False)
  | .realloc _ _ => inferInstanceAs (Decidable (_ ∧ _))
  | .write _ _ => inferInstanceAs (Decidable False)

theorem Inv.perform_coalesced (hinv : Inv c s) (hp : Permitted c s a) (hcut : ¬ CutsFree s a)
    (hs : MallocLab.perform c s a = .ok s') (hcoal : Coalesced c s.heap) : Coalesced c s'.heap := by
  obtain ⟨U, hrest, howned⟩ := hinv
  cases a with
  | malloc size =>
    obtain ⟨⟨r, t⟩, ht, rfl⟩ := (runs_mmMalloc_any hrest hp).of_map_ok hs
    exact ht.2 hcoal
  | free ptr =>
    obtain ⟨b, z, rfl, hb⟩ := howned.exists_block hp
    obtain ⟨r, ht, rfl⟩ := (runs_mmFree hrest hb).of_map_ok hs
    exact ht.2 hcoal
  | realloc ptr size =>
    obtain ⟨b, z, rfl, hb⟩ := howned.exists_block hp.1
    obtain ⟨⟨r, t⟩, ht, rfl⟩ := (runs_mmRealloc_any hrest hb hp.2).of_map_ok hs
    exact ht.2 hcoal hcut
  | write x v =>
    cases hs
    obtain ⟨⟨p, n⟩, hmem, hx⟩ := hp
    obtain ⟨b, z, rfl, hb, -⟩ := howned.block p n hmem
    rw [hrest.usable_eq hb] at hx
    have hbound := hrest.bounds hb
    refine (hrest.write hb fun y hy => if_neg ?_).2 hcoal
    dsimp only at hx
    omega

theorem coalesced_of_initial {m : Mem} (hs : initial c m = .ok s) : Coalesced c s.heap := by
  obtain ⟨r, ht, rfl⟩ := (runs_mmInit m).of_map_ok hs
  exact ht.2

/-- As long as no call cuts a block before a free one, no two neighbours are free. -/
theorem fullyCoalesced_of_reaches {m : Mem} {s₀ : Client} (h₀ : initial c m = .ok s₀)
    (hs : Reaches (step c) (fun s a => Permitted c s a ∧ ¬ CutsFree s a) s₀ s) :
    FullyCoalesced c s.heap := by
  have hboth : Inv c s ∧ Coalesced c s.heap := by
    apply hs.invariant ⟨Inv.of_initial h₀, coalesced_of_initial h₀⟩
    intro t a t' ht hp hstep
    have hperf := perform_of_step hstep
    exact ⟨ht.1.perform hp.1 hperf, ht.1.perform_coalesced hp.1 hp.2 hperf ht.2⟩
  obtain ⟨⟨U, ⟨bs, fl, hrep, hc, -⟩, -⟩, hcoal⟩ := hboth
  exact ⟨bs, fl, hrep.consistent hc, hrep.coalesced_iff.mp hcoal⟩

/-- Two blocks are allocated, the first is cut before the second, which is released. -/
def cutActions : List Action := [.malloc 100, .malloc 24, .realloc 24 8, .free 136]

theorem fullyCoalesced_cut :
    ∃ s₀ s, initial demo (fun _ => 0) = .ok s₀ ∧
      Reaches (step demo) (fun s a => Permitted demo s a ∧ ¬ CutsFree s a) s₀ s ∧
        s.live = [(24, 8)] ∧ FullyCoalesced demo s.heap := by
  have hlive : ((initial demo (fun _ => 0)).toOption.bind (runWhile (step demo)
      (fun s a => decide (Permitted demo s a ∧ ¬ CutsFree s a)) · cutActions)).map Client.live =
        some [(24, 8)] := by
    decide +kernel
  obtain ⟨s, hs, hl⟩ := Option.map_eq_some_iff.mp hlive
  obtain ⟨s₀, h₀, hrun⟩ := Option.bind_eq_some_iff.mp hs
  have hinit : initial demo (fun _ => 0) = .ok s₀ := by
    cases hi : initial demo (fun _ => 0) with
    | error e =>
      rw [hi] at h₀
      cases h₀
    | ok t =>
      rw [hi] at h₀
      cases h₀
      rfl
  have hreach : Reaches (step demo) (fun s a => Permitted demo s a ∧ ¬ CutsFree s a) s₀ s :=
    (reaches_runWhile cutActions .refl hrun).mono fun _ _ hok => of_decide_eq_true hok
  exact ⟨s₀, s, hinit, hreach, hl, fullyCoalesced_of_reaches hinit hreach⟩

/-- A block is allocated before the rest of a new page, and shrunk in place. -/
def shrinkActions : List Action := [.malloc 100, .realloc 24 8]

theorem not_fullyCoalesced_shrink :
    ∃ s₀ s, initial demo (fun _ => 0) = .ok s₀ ∧ Reaches (step demo) (Permitted demo) s₀ s ∧
      ¬ FullyCoalesced demo s.heap := by
  have hrun : (runFrom demo (fun _ => 0) shrinkActions).map
      (fun s => decide (Coalesced demo s.heap)) = some false := by
    decide +kernel
  obtain ⟨s, hs, hcoal⟩ := Option.map_eq_some_iff.mp hrun
  obtain ⟨s₀, h₀, hreach⟩ := reaches_of_runFrom hs
  exact ⟨s₀, s, h₀, hreach, fun hfull => of_decide_eq_false hcoal hfull.coalesced⟩

end Courses.MallocLab
