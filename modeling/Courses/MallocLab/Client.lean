import Courses.Lib.Runs
import Courses.MallocLab.Calls
import Courses.MallocLab.Realloc

/-!
# The allocator and its client

A client makes any sequence of calls, frees and resizes only pointers it holds, and
stores only into their payloads. The main results hold in every state of every such
run: the heap is consistent, and the client gets what `malloc` promises.
-/
namespace Courses.MallocLab

open Courses.Lib

/-- The heap, and the pointers the client holds with the sizes it asked for. -/
structure Client where
  heap : Heap
  live : List (ℕ × ℕ)

inductive Action where
  | malloc (size : ℕ)
  | free (ptr : ℕ)
  | realloc (ptr size : ℕ)
  /-- The client stores a byte. -/
  | write (x : ℕ) (v : UInt8)

/-- NULL is not a pointer to hold. -/
def grant (ptr size : ℕ) (live : List (ℕ × ℕ)) : List (ℕ × ℕ) :=
  if ptr = 0 then live else (ptr, size) :: live

def forget (ptr : ℕ) (live : List (ℕ × ℕ)) : List (ℕ × ℕ) :=
  live.filter fun l => l.1 ≠ ptr

/-- The bytes the client may use at `ptr`: the block without its header. -/
def usable (h : Heap) (ptr : ℕ) : ℕ := SIZE (word h.bytes (ptr - 8)) - 8

def perform (c : Config) (s : Client) : Action → Except Stop Client
  | .malloc size => (mmMalloc c size s.heap).map fun r => ⟨r.2, grant r.1 size s.live⟩
  | .free ptr => (mmFree c ptr s.heap).map fun r => ⟨r.2, forget ptr s.live⟩
  | .realloc ptr size =>
    (mmRealloc c ptr size s.heap).map fun r => ⟨r.2, grant r.1 size (forget ptr s.live)⟩
  | .write x v => .ok ⟨⟨fun y => if y = x then v else s.heap.bytes y, s.heap.brk⟩, s.live⟩

def step (c : Config) (s : Client) (a : Action) : Option Client := (perform c s a).toOption

/-- What the client may do: sizes do not wrap, pointers are its own, and so are the
bytes it stores to. -/
def Permitted (c : Config) (s : Client) : Action → Prop
  | .malloc size => size ≠ 0 → NoWrap c s.heap size
  | .free ptr => ptr ∈ s.live.map Prod.fst
  | .realloc ptr size => ptr ∈ s.live.map Prod.fst ∧ (size ≠ 0 → NoWrap c s.heap size)
  | .write x _ => ∃ l ∈ s.live, l.1 ≤ x ∧ x < l.1 + usable s.heap l.1

instance (c : Config) (s : Heap) (size : ℕ) : Decidable (NoWrap c s size) :=
  inferInstanceAs (Decidable (_ ∧ _ ∧ _))

instance (c : Config) (s : Client) : (a : Action) → Decidable (Permitted c s a)
  | .malloc size => inferInstanceAs (Decidable (size ≠ 0 → NoWrap c s.heap size))
  | .free ptr => inferInstanceAs (Decidable (ptr ∈ s.live.map Prod.fst))
  | .realloc ptr size =>
    inferInstanceAs (Decidable (ptr ∈ s.live.map Prod.fst ∧ (size ≠ 0 → NoWrap c s.heap size)))
  | .write x _ => inferInstanceAs (Decidable (∃ l ∈ s.live, l.1 ≤ x ∧ x < l.1 + usable s.heap l.1))

/-- The client after `mem_init` and `mm_init`, over memory that holds anything. -/
def initial (c : Config) (m : Mem) : Except Stop Client :=
  (mmInit c ⟨m, c.heapLo⟩).map fun r => ⟨r.2, []⟩

/-! ## The invariant -/

section Invariant

variable {c : Config} {s s' : Client} {h h' : Heap} {U : ℕ → ℕ → Prop} {live : List (ℕ × ℕ)}
  {b z n p size : ℕ}

/-- The used blocks are those the client holds pointers to, each large enough. -/
structure Owned (U : ℕ → ℕ → Prop) (live : List (ℕ × ℕ)) : Prop where
  block : ∀ p n, (p, n) ∈ live → ∃ b z, p = b + 8 ∧ U b z ∧ n + 8 ≤ z
  held : ∀ b z, U b z → ∃ n, (b + 8, n) ∈ live
  nodup : (live.map Prod.fst).Nodup

def Inv (c : Config) (s : Client) : Prop :=
  ∃ U, Resting c s.heap U ∧ Owned U s.live

theorem Owned.grant (h : Owned U live) (hfresh : ∀ w, ¬ U b w) (hn : n + 8 ≤ z) :
    Owned (fun p w => U p w ∨ (p = b ∧ w = z)) (grant (b + 8) n live) := by
  rw [MallocLab.grant, if_neg (by omega)]
  refine ⟨?_, ?_, ?_⟩
  · intro p k hp
    rcases List.mem_cons.mp hp with heq | hp
    · cases heq
      exact ⟨b, z, rfl, Or.inr ⟨rfl, rfl⟩, hn⟩
    · obtain ⟨d, w, rfl, hd, hw⟩ := h.block p k hp
      exact ⟨d, w, rfl, Or.inl hd, hw⟩
  · rintro d w (hd | ⟨rfl, rfl⟩)
    · obtain ⟨k, hk⟩ := h.held d w hd
      exact ⟨k, List.mem_cons_of_mem _ hk⟩
    · exact ⟨n, List.mem_cons_self⟩
  · rw [List.map_cons, List.nodup_cons]
    refine ⟨fun hmem => ?_, h.nodup⟩
    obtain ⟨⟨p, k⟩, hp, hpb⟩ := List.mem_map.mp hmem
    obtain ⟨d, w, rfl, hd, -⟩ := h.block p k hp
    have hdb : d = b := Nat.add_right_cancel hpb
    exact hfresh w (hdb ▸ hd)

theorem Owned.forget (h : Owned U live) :
    Owned (fun p w => U p w ∧ p ≠ b) (forget (b + 8) live) := by
  refine ⟨?_, ?_, ?_⟩
  · intro p k hp
    obtain ⟨hp, hne⟩ := List.mem_filter.mp hp
    obtain ⟨d, w, rfl, hd, hw⟩ := h.block p k hp
    have hdb : d ≠ b := by simpa using hne
    exact ⟨d, w, rfl, ⟨hd, hdb⟩, hw⟩
  · rintro d w ⟨hd, hne⟩
    obtain ⟨k, hk⟩ := h.held d w hd
    exact ⟨k, List.mem_filter.mpr ⟨hk, by simpa using hne⟩⟩
  · exact h.nodup.sublist (List.Sublist.map _ List.filter_sublist)

/-- A pointer the client holds is the payload of a used block. -/
theorem Owned.exists_block (h : Owned U live) (hp : p ∈ live.map Prod.fst) :
    ∃ b z, p = b + 8 ∧ U b z := by
  obtain ⟨⟨p, k⟩, hmem, rfl⟩ := List.mem_map.mp hp
  obtain ⟨b, z, rfl, hb, -⟩ := h.block p k hmem
  exact ⟨b, z, rfl, hb⟩

theorem Resting.usable_eq (h : Resting c s.heap U) (hb : U b z) : usable s.heap (b + 8) = z - 8 := by
  obtain ⟨bs, fl, hrep, -, hU⟩ := h
  rw [usable, Nat.add_sub_cancel, hrep.usedAt_head ((hU b z).mpr hb)]

/-! ## One step -/

/-- A call that returns, with what it promises. -/
theorem Runs.of_map_ok {α : Type} {x : HeapM α} {Q : α → Heap → Prop} {f : α × Heap → Client}
    (hx : Runs x h Q) (hmap : (x h).map f = .ok s') : ∃ r, Q r.1 r.2 ∧ s' = f r := by
  rw [Runs] at hx
  cases hxh : x h with
  | error e =>
    rw [hxh] at hmap
    cases hmap
  | ok r =>
    rw [hxh] at hx hmap
    cases hmap
    exact ⟨r, hx, rfl⟩

theorem Runs.map_progress {α : Type} {x : HeapM α} {Q : α → Heap → Prop} {f : α × Heap → Client}
    (hx : Runs x h Q) : (∃ t, (x h).map f = .ok t) ∨ (x h).map f = .error .outOfMemory := by
  rw [Runs] at hx
  cases hxh : x h with
  | error e =>
    rw [hxh] at hx
    cases hx
    exact Or.inr rfl
  | ok r => exact Or.inl ⟨f r, rfl⟩

/-- Any request: one of zero bytes gets NULL. -/
theorem runs_mmMalloc_any (hrest : Resting c h U) (hwrap : size ≠ 0 → NoWrap c h size) :
    Runs (mmMalloc c size) h (fun r t => ((r = 0 ∧ t = h) ∨ Allocated c h U size r t) ∧
      (Coalesced c h → Coalesced c t)) := by
  by_cases hsize : size = 0
  · rw [mmMalloc, if_pos hsize]
    exact runs_pure ⟨Or.inl ⟨rfl, rfl⟩, id⟩
  · exact (runs_mmMalloc hrest hsize (hwrap hsize)).mono fun _ _ ht => ⟨Or.inr ht.1, ht.2⟩

theorem runs_mmRealloc_any (hrest : Resting c h U) (hb : U b z)
    (hwrap : size ≠ 0 → NoWrap c h size) :
    Runs (mmRealloc c (b + 8) size) h (fun r t =>
      ((r = 0 ∧ Released c h U b t) ∨ Reallocated c h U b z size r t) ∧
        (Coalesced c h → ¬ (size ≠ 0 ∧ CutsBeforeFree h b size) → Coalesced c t)) := by
  by_cases hsize : size = 0
  · rw [hsize]
    exact (runs_mmRealloc_zero hrest hb).mono fun _ _ ht => ⟨Or.inl ht.1, fun hk _ => ht.2 hk⟩
  · refine (runs_mmRealloc hrest hb hsize (hwrap hsize)).mono fun _ _ ht => ⟨Or.inr ht.1, ?_⟩
    exact fun hk hcut => ht.2 ⟨hk, fun h => hcut ⟨hsize, h⟩⟩

/-- A call that the client may make returns, unless memory runs out. -/
theorem Inv.progress (hinv : Inv c s) {a : Action} (hp : Permitted c s a) :
    (∃ t, perform c s a = .ok t) ∨ perform c s a = .error .outOfMemory := by
  obtain ⟨U, hrest, howned⟩ := hinv
  cases a with
  | malloc size => exact (runs_mmMalloc_any hrest hp).map_progress
  | free ptr =>
    obtain ⟨b, z, rfl, hb⟩ := howned.exists_block hp
    exact (runs_mmFree hrest hb).map_progress
  | realloc ptr size =>
    obtain ⟨b, z, rfl, hb⟩ := howned.exists_block hp.1
    exact (runs_mmRealloc_any hrest hb hp.2).map_progress
  | write x v => exact Or.inl ⟨_, rfl⟩

theorem Inv.perform (hinv : Inv c s) {a : Action} (hp : Permitted c s a)
    (hs : perform c s a = .ok s') : Inv c s' := by
  obtain ⟨U, hrest, howned⟩ := hinv
  cases a with
  | malloc size =>
    obtain ⟨⟨r, t⟩, ⟨⟨rfl, rfl⟩ | ⟨b, z, rfl, hz, hfresh, ht, -⟩, -⟩, rfl⟩ :=
      (runs_mmMalloc_any hrest hp).of_map_ok hs
    · exact ⟨U, hrest, howned⟩
    · exact ⟨_, ht, howned.grant hfresh hz⟩
  | free ptr =>
    obtain ⟨b, z, rfl, hb⟩ := howned.exists_block hp
    obtain ⟨r, ⟨ht, -⟩, rfl⟩ := (runs_mmFree hrest hb).of_map_ok hs
    exact ⟨_, ht.1, howned.forget⟩
  | realloc ptr size =>
    obtain ⟨b, z, rfl, hb⟩ := howned.exists_block hp.1
    obtain ⟨⟨r, t⟩, ⟨⟨rfl, ht⟩ | ⟨b', z', rfl, hz, hfresh, ht, -⟩, -⟩, rfl⟩ :=
      (runs_mmRealloc_any hrest hb hp.2).of_map_ok hs
    · exact ⟨_, ht.1, howned.forget⟩
    · refine ⟨_, ht, howned.forget.grant ?_ hz⟩
      rintro w ⟨hw, hne⟩
      exact hne (hfresh w hw)
  | write x v =>
    cases hs
    obtain ⟨⟨p, n⟩, hmem, hx⟩ := hp
    obtain ⟨b, z, rfl, hb, -⟩ := howned.block p n hmem
    rw [hrest.usable_eq hb] at hx
    have hbound := hrest.bounds hb
    refine ⟨U, (hrest.write hb fun y hy => if_neg ?_).1, howned⟩
    dsimp only at hx
    omega

theorem Inv.of_initial {m : Mem} (hs : initial c m = .ok s) : Inv c s := by
  obtain ⟨r, ⟨ht, -⟩, rfl⟩ := (runs_mmInit m).of_map_ok hs
  refine ⟨_, ht, ?_, ?_, List.nodup_nil⟩
  · exact fun p n hp => absurd hp List.not_mem_nil
  · exact fun b z hb => absurd hb id

theorem perform_of_step {a : Action} (hstep : step c s a = some s') : perform c s a = .ok s' := by
  unfold step at hstep
  cases hperf : perform c s a with
  | error e =>
    rw [hperf] at hstep
    cases hstep
  | ok t =>
    rw [hperf] at hstep
    cases hstep
    rfl

theorem Inv.of_reaches {s₀ : Client} (h₀ : Inv c s₀)
    (hs : Reaches (step c) (Permitted c) s₀ s) : Inv c s := by
  apply hs.invariant h₀
  intro t a t' ht hp hstep
  exact ht.perform hp (perform_of_step hstep)

/-! ## Every run -/

/-- In every run the heap stays consistent, and every call the client may make returns
unless memory runs out. -/
theorem heap_consistent {m : Mem} {s₀ : Client} (h₀ : initial c m = .ok s₀)
    (hs : Reaches (step c) (Permitted c) s₀ s) :
    (∃ bs fl, Consistent c s.heap bs fl) ∧
      ∀ a, Permitted c s a →
        (∃ t, perform c s a = .ok t) ∨ perform c s a = .error .outOfMemory := by
  have hinv := Inv.of_reaches (Inv.of_initial h₀) hs
  refine ⟨?_, fun a hp => hinv.progress hp⟩
  obtain ⟨U, ⟨bs, fl, hrep, hc, -⟩, -⟩ := hinv
  exact ⟨bs, fl, hrep.consistent hc⟩

end Invariant

/-- A heap at address 8 with the usual pages. -/
def demo : Config where
  heapLo := 8
  maxAddr := 8 + MAX_HEAP
  pagesize := 4096
  heapLo_pos := by decide
  heapLo_aligned := by decide
  maxAddr_eq := rfl
  maxAddr_lt := by decide
  pagesize_pos := by decide
  pagesize_aligned := by decide

/-- What a computed start of a run shows about it. -/
theorem exists_initial_of_map {β : Type} {c : Config} {m : Mem} {f : Client → β} {v : β}
    (h : (initial c m).toOption.map f = some v) : ∃ s₀, initial c m = .ok s₀ ∧ f s₀ = v := by
  cases h₀ : initial c m with
  | error e =>
    rw [h₀] at h
    cases h
  | ok s₀ =>
    rw [h₀] at h
    exact ⟨s₀, rfl, Option.some.inj h⟩

/-- A run on a given sequence of actions, as long as each is permitted. -/
def runFrom (c : Config) (m : Mem) (es : List Action) : Option Client :=
  (initial c m).toOption.bind (runWhile (step c) (fun s a => decide (Permitted c s a)) · es)

theorem reaches_of_runFrom {c : Config} {m : Mem} {es : List Action} {s : Client}
    (h : runFrom c m es = some s) :
    ∃ s₀, initial c m = .ok s₀ ∧ Reaches (step c) (Permitted c) s₀ s := by
  rw [runFrom] at h
  cases h₀ : initial c m with
  | error e =>
    rw [h₀] at h
    cases h
  | ok s₀ =>
    rw [h₀] at h
    refine ⟨s₀, rfl, ?_⟩
    exact (reaches_runWhile es .refl h).mono fun _ _ hok => of_decide_eq_true hok

/-- The heap grows, a block moves, another is freed, and the first is cut. -/
def demoActions : List Action :=
  [.malloc 24, .write 24 7, .malloc 40, .realloc 24 100, .free 56, .realloc 104 8]

theorem reaches_demo :
    ∃ s₀ s, initial demo (fun _ => 0) = .ok s₀ ∧ Reaches (step demo) (Permitted demo) s₀ s ∧
      s.live = [(104, 8)] := by
  have hlive : (runFrom demo (fun _ => 0) demoActions).map Client.live = some [(104, 8)] := by
    decide +kernel
  obtain ⟨s, hs, hl⟩ := Option.map_eq_some_iff.mp hlive
  obtain ⟨s₀, h₀, hreach⟩ := reaches_of_runFrom hs
  exact ⟨s₀, s, h₀, hreach, hl⟩

theorem heap_consistent_demo :
    ∃ s₀ s, initial demo (fun _ => 0) = .ok s₀ ∧ Reaches (step demo) (Permitted demo) s₀ s ∧
      s.live = [(104, 8)] ∧ ∃ bs fl, Consistent demo s.heap bs fl := by
  obtain ⟨s₀, s, h₀, hreach, hl⟩ := reaches_demo
  exact ⟨s₀, s, h₀, hreach, hl, (heap_consistent h₀ hreach).1⟩

/-! ## The client's side -/

section Contract

variable {c : Config} {s t : Client} {h' : Heap} {a : Action} {p n old r : ℕ}

/-- The pointer a call is given. -/
def Action.given : Action → Option ℕ
  | .malloc _ => none
  | .free ptr => some ptr
  | .realloc ptr _ => some ptr
  | .write _ _ => none

/-- What the client may rely on. A payload is the usable bytes at a pointer it holds. -/
structure Contract (c : Config) (s : Client) : Prop where
  aligned : ∀ p n, (p, n) ∈ s.live → 8 ∣ p
  inside : ∀ p n, (p, n) ∈ s.live → c.heapLo ≤ p ∧ p + usable s.heap p ≤ s.heap.brk
  enough : ∀ p n, (p, n) ∈ s.live → n ≤ usable s.heap p
  disjoint : s.live.Pairwise fun k l =>
    k.1 + usable s.heap k.1 ≤ l.1 ∨ l.1 + usable s.heap l.1 ≤ k.1
  /-- A call changes no payload but the one it is given. -/
  frame : ∀ a t, Permitted c s a → perform c s a = .ok t → (∀ x v, a ≠ .write x v) →
    ∀ p n, (p, n) ∈ s.live → a.given ≠ some p →
      ∀ x, p ≤ x → x < p + usable s.heap p → t.heap.bytes x = s.heap.bytes x
  /-- A resized block starts as the old one did, wherever it is. -/
  resized : ∀ p old n, (p, old) ∈ s.live → n ≠ 0 → NoWrap c s.heap n →
    ∀ r h', mmRealloc c p n s.heap = .ok (r, h') →
      ∀ i, i < min old n → h'.bytes (r + i) = s.heap.bytes (p + i)

theorem Inv.disjoint (hinv : Inv c s) : s.live.Pairwise fun k l =>
    k.1 + usable s.heap k.1 ≤ l.1 ∨ l.1 + usable s.heap l.1 ≤ k.1 := by
  obtain ⟨U, hrest, howned⟩ := hinv
  apply (List.pairwise_map.mp howned.nodup).imp_of_mem
  rintro ⟨p, n⟩ ⟨q, k⟩ hp hq hne
  obtain ⟨b, z, rfl, hb, -⟩ := howned.block p n hp
  obtain ⟨d, w, rfl, hd, -⟩ := howned.block q k hq
  have hap := hrest.apart hb hd
  have hbb := hrest.bounds hb
  have hdb := hrest.bounds hd
  dsimp only at hne ⊢
  rw [hrest.usable_eq hb, hrest.usable_eq hd]
  omega

theorem Inv.frame (hinv : Inv c s) (hp : Permitted c s a) (hs : MallocLab.perform c s a = .ok t)
    (hcall : ∀ x v, a ≠ .write x v) (hl : (p, n) ∈ s.live) (hgiven : a.given ≠ some p) {x : ℕ}
    (hx : p ≤ x) (hx' : x < p + usable s.heap p) : t.heap.bytes x = s.heap.bytes x := by
  obtain ⟨U, hrest, howned⟩ := hinv
  obtain ⟨d, w, rfl, hd, -⟩ := howned.block p n hl
  have hbound := hrest.bounds hd
  rw [hrest.usable_eq hd] at hx'
  cases a with
  | malloc size =>
    obtain ⟨⟨r, u⟩, ⟨⟨rfl, rfl⟩ | ⟨b, z, -, -, -, -, hkeep⟩, -⟩, rfl⟩ :=
      (runs_mmMalloc_any hrest hp).of_map_ok hs
    · rfl
    · exact hkeep d w hd x hx (by omega)
  | free ptr =>
    obtain ⟨b, z, rfl, hb⟩ := howned.exists_block hp
    obtain ⟨r, ⟨ht, -⟩, rfl⟩ := (runs_mmFree hrest hb).of_map_ok hs
    have hne : d ≠ b := fun heq => hgiven (by rw [heq]; rfl)
    exact ht.2 d w ⟨hd, hne⟩ x hx (by omega)
  | realloc ptr size =>
    obtain ⟨b, z, rfl, hb⟩ := howned.exists_block hp.1
    have hne : d ≠ b := fun heq => hgiven (by rw [heq]; rfl)
    obtain ⟨⟨r, u⟩, ⟨⟨rfl, ht⟩ | ⟨b', z', -, -, -, -, hkeep, -⟩, -⟩, rfl⟩ :=
      (runs_mmRealloc_any hrest hb hp.2).of_map_ok hs
    · exact ht.2 d w ⟨hd, hne⟩ x hx (by omega)
    · exact hkeep d w ⟨hd, hne⟩ x hx (by omega)
  | write y v => exact absurd rfl (hcall y v)

theorem Inv.resized (hinv : Inv c s) (hl : (p, old) ∈ s.live) (hn : n ≠ 0)
    (hwrap : NoWrap c s.heap n) (hr : mmRealloc c p n s.heap = .ok (r, h')) {i : ℕ}
    (hi : i < min old n) : h'.bytes (r + i) = s.heap.bytes (p + i) := by
  obtain ⟨U, hrest, howned⟩ := hinv
  obtain ⟨b, z, rfl, hb, hz⟩ := howned.block p old hl
  have hrun := runs_mmRealloc hrest hb hn hwrap
  rw [Runs, hr] at hrun
  obtain ⟨⟨b', z', rfl, -, -, -, -, hcopy⟩, -⟩ := hrun
  have := lt_min_iff.mp hi
  exact hcopy i (by omega) (by omega)

theorem client_contract {m : Mem} {s₀ : Client} (h₀ : initial c m = .ok s₀)
    (hs : Reaches (step c) (Permitted c) s₀ s) : Contract c s := by
  have hinv := Inv.of_reaches (Inv.of_initial h₀) hs
  have hinv' := hinv
  obtain ⟨U, hrest, howned⟩ := hinv'
  have hfirst : c.firstBlock = c.heapLo + 8 := rfl
  refine ⟨fun p n hp => ?_, fun p n hp => ?_, fun p n hp => ?_, hinv.disjoint,
    fun a t hp ht hcall p n hl hgiven x hx hx' => hinv.frame hp ht hcall hl hgiven hx hx',
    fun p old n hl hn hwrap r h' hr i hi => hinv.resized hl hn hwrap hr hi⟩
  all_goals
    obtain ⟨b, z, rfl, hb, hz⟩ := howned.block p n hp
    have hbound := hrest.bounds hb
  · exact dvd_add hbound.2.2.2 (dvd_refl 8)
  · rw [hrest.usable_eq hb]
    omega
  · rw [hrest.usable_eq hb]
    omega

end Contract

theorem client_contract_demo :
    ∃ s₀ s, initial demo (fun _ => 0) = .ok s₀ ∧ Reaches (step demo) (Permitted demo) s₀ s ∧
      s.live = [(104, 8)] ∧ Contract demo s := by
  obtain ⟨s₀, s, h₀, hreach, hl⟩ := reaches_demo
  exact ⟨s₀, s, h₀, hreach, hl, client_contract h₀ hreach⟩

end Courses.MallocLab
