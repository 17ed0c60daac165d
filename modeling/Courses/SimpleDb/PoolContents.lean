import Courses.SimpleDb.TwoPhaseLocking

/-!
# The pages of the pool and the pages on disk

What eviction, loading, flushing and rereading do to the pages in the pool and
on disk, and the relation of both to the transactional store: a page on disk has
the committed rows, a page in the pool the visible ones, and a page with a
pending write is in the pool and dirty.
-/
set_option linter.unusedSectionVars false

namespace Courses.SimpleDb

open Courses.Lib

namespace HeapPage

theorem contents_image (page : HeapPage) : page.image.contents = page.contents := by
  funext i
  unfold contents
  split_ifs
  · rfl
  · rw [occupant_image, reread, Option.map_map]
    rfl

/-- A deletion empties the slot of its record. -/
theorem contents_deleteTuple {page page' : HeapPage} {t : Tuple} {rid : RecordId}
    (h : page.deleteTuple t = .ok page') (hrid : t.rid = some rid) :
    page'.pid = page.pid ∧ page'.contents = Function.update page.contents rid.tupleno none := by
  obtain ⟨rid', hrid', hpid, _, htuples, hbits⟩ := deleteTuple_ok h
  rw [hrid, Option.some.injEq] at hrid'
  subst hrid'
  refine ⟨hpid, ?_⟩
  funext i
  unfold contents
  by_cases hneg : i < 0
  · by_cases hi : i = rid.tupleno
    · simp [hneg, ← hi]
    · simp [hneg, Function.update_of_ne hi]
  · have hcast : (i.toNat : ℤ) = i := Int.toNat_of_nonneg (by omega)
    rw [if_neg hneg]
    by_cases hi : i = rid.tupleno
    · rw [← hi, Function.update_self, occupant, hbits, hcast, if_pos hi]
      rfl
    · rw [Function.update_of_ne hi, if_neg hneg, occupant, hbits, hcast, if_neg hi, htuples]
      rfl

end HeapPage

namespace BufferPool

variable {Tid : Type} [DecidableEq Tid] {env : Env Tid} {s s' : BufferPool Tid} {tid : Tid}

theorem mem_keys_iff {pages : List (HeapPageId × Page Tid)} {p : HeapPageId} :
    p ∈ pages.map Prod.fst ↔ (pages.lookup p).isSome := by
  induction pages with
  | nil => simp
  | cons e pages ih =>
    obtain ⟨a, b⟩ := e
    rw [List.map_cons, List.mem_cons, List.lookup_cons]
    by_cases hp : p = a
    · simp [hp]
    · have hne : (p == a) = false := by simpa using hp
      rw [hne]
      simp [hp, ih]

theorem mem_keys {pages : List (HeapPageId × Page Tid)} {p : HeapPageId} {page : Page Tid}
    (h : pages.lookup p = some page) : p ∈ pages.map Prod.fst :=
  mem_keys_iff.mpr (by rw [h]; rfl)

/-! ## Evicting and loading -/

/-- Only a clean page leaves the pool. -/
theorem evictLoop_pages (n : ℕ) (s : BufferPool Tid) :
    (s.evictLoop n).1.disk = s.disk ∧
      (∀ p page, (s.evictLoop n).1.pages.lookup p = some page →
        s.pages.lookup p = some page) ∧
      ∀ p page, s.pages.lookup p = some page → page.dirty.isSome →
        (s.evictLoop n).1.pages.lookup p = some page := by
  induction n generalizing s with
  | zero => exact ⟨rfl, fun _ _ h => h, fun _ _ h _ => h⟩
  | succ n ih =>
    unfold evictLoop
    split
    · exact ⟨rfl, fun _ _ h => h, fun _ _ h _ => h⟩
    · next pid rest _ =>
      split
      · exact ⟨rfl, fun _ _ h => h, fun _ _ h _ => h⟩
      · next page hpage =>
        split
        · exact ih { s with pageids := rest ++ [pid] }
        · next hclean =>
          have hflush : ({ s with pageids := rest } : BufferPool Tid).flushPage pid =
              { s with pageids := rest } := by
            simp only [flushPage, hpage, hclean]
          rw [hflush]
          refine ⟨rfl, fun p page' h => ?_, fun p page' h hd => ?_⟩
          · simp only [lookup_remove] at h
            split_ifs at h
            exact h
          · have hne : p ≠ pid := by
              rintro rfl
              rw [hpage, Option.some.injEq] at h
              rw [← h, hclean] at hd
              cases hd
            simp only [lookup_remove, if_neg hne]
            exact h

theorem makeRoom_pages (env : Env Tid) (s : BufferPool Tid) :
    (s.makeRoom env).1.disk = s.disk ∧
      (∀ p page, (s.makeRoom env).1.pages.lookup p = some page → s.pages.lookup p = some page) ∧
      ∀ p page, s.pages.lookup p = some page → page.dirty.isSome →
        (s.makeRoom env).1.pages.lookup p = some page := by
  unfold makeRoom
  split_ifs
  · exact evictLoop_pages _ s
  · exact ⟨rfl, fun _ _ h => h, fun _ _ h _ => h⟩

/-- Loading a page may take clean pages out of the pool and puts in at most the
page asked for, as it is on disk. -/
theorem loadPage_pages (env : Env Tid) (s : BufferPool Tid) (pid : HeapPageId) :
    (s.loadPage env pid).1.disk = s.disk ∧
      (∀ p page, (s.loadPage env pid).1.pages.lookup p = some page →
        s.pages.lookup p = some page ∨ p = pid ∧ s.pages.lookup pid = none ∧
          s.readPage pid = some page.heap) ∧
      (∀ p page, s.pages.lookup p = some page → page.dirty.isSome →
        (s.loadPage env pid).1.pages.lookup p = some page) ∧
      ∀ page, (s.loadPage env pid).2 = some page →
        (s.loadPage env pid).1.pages.lookup pid = some page := by
  obtain ⟨hdisk, hold, hdirty⟩ := makeRoom_pages env s
  unfold loadPage
  split
  · next page hpage =>
    exact ⟨rfl, fun _ _ h => .inl h, fun _ _ h _ => h, fun page' h => by cases h; exact hpage⟩
  · next hnone =>
    split
    · next t ht =>
      rw [ht] at hdisk hold hdirty
      exact ⟨hdisk, fun p page h => .inl (hold p page h), hdirty, nofun⟩
    · next t ht =>
      rw [ht] at hdisk hold hdirty
      have hread : t.readPage pid = s.readPage pid := by
        unfold readPage
        rw [hdisk]
      rw [hread]
      split
      · exact ⟨hdisk, fun p page h => .inl (hold p page h), hdirty, nofun⟩
      · next heap hheap =>
        refine ⟨hdisk, fun p page h => ?_, fun p page h hd => ?_, fun page h => ?_⟩
        · simp only [lookup_put] at h
          split_ifs at h with hp
          · cases h
            exact .inr ⟨hp, hnone, hheap⟩
          · exact .inl (hold p page h)
        · have hne : p ≠ pid := by
            rintro rfl
            simp [hnone] at h
          simp only [lookup_put, if_neg hne]
          exact hdirty p page h hd
        · cases h
          simp [lookup_put]

/-! ## Flushing and rereading -/

/-- Pages in the pool are filed under their own id, and the clean ones are as they
are on disk. -/
def Filed (s : BufferPool Tid) : Prop :=
  ∀ p page, s.pages.lookup p = some page →
    page.heap.pid = p ∧ (page.dirty = none → s.onDisk p = some page.heap.contents)

theorem flushPage_filed (h : s.Filed) (pid : HeapPageId) :
    (∀ p, ((s.flushPage pid).pages.lookup p).map Page.heap = (s.pages.lookup p).map Page.heap) ∧
      (∀ p, p ≠ pid → (s.flushPage pid).pages.lookup p = s.pages.lookup p ∧
        (s.flushPage pid).onDisk p = s.onDisk p) ∧
      (∀ page, s.pages.lookup pid = some page →
        (s.flushPage pid).onDisk pid = some page.heap.contents) ∧
      (s.pages.lookup pid = none → (s.flushPage pid).onDisk pid = s.onDisk pid) := by
  unfold flushPage
  split
  · next hnone =>
    exact ⟨fun _ => rfl, fun _ _ => ⟨rfl, rfl⟩, fun page hp => by simp [hnone] at hp, fun _ => rfl⟩
  · next page hpage =>
    obtain ⟨hpid, hclean⟩ := h pid page hpage
    split
    · next hd =>
      refine ⟨fun _ => rfl, fun _ _ => ⟨rfl, rfl⟩, fun page' hp => ?_, fun _ => rfl⟩
      rw [hpage, Option.some.injEq] at hp
      exact hp ▸ hclean hd
    · have hwhere : (⟨pid.tableId, page.heap.pid.pgNo⟩ : HeapPageId) = pid := by rw [hpid]
      refine ⟨fun p => ?_, fun p hp => ⟨?_, ?_⟩, fun page' hp => ?_, fun hn => ?_⟩
      · rw [lookup_put]
        split_ifs with hp
        · rw [hp, hpage]
          rfl
        · rfl
      · rw [lookup_put, if_neg hp]
      · simp only [onDisk, writePage, hwhere, Function.update_of_ne hp]
      · rw [hpage, Option.some.injEq] at hp
        rw [← hp]
        simp only [onDisk, writePage, hwhere, Function.update_self, Option.map_some,
          HeapPage.contents_image]
      · simp [hpage] at hn

theorem flushPage_keeps_filed (h : s.Filed) (pid : HeapPageId) : (s.flushPage pid).Filed := by
  obtain ⟨hheap, hother, hself, _⟩ := flushPage_filed h pid
  intro p page hp
  have hmap := hheap p
  rw [hp, Option.map_some] at hmap
  obtain ⟨page₀, hp₀, hsame⟩ := Option.map_eq_some_iff.mp hmap.symm
  refine ⟨hsame ▸ (h p page₀ hp₀).1, fun hd => ?_⟩
  by_cases hpp : p = pid
  · subst hpp
    rw [hself page₀ hp₀, hsame]
  · rw [(hother p hpp).1] at hp
    rw [(hother p hpp).2]
    exact (h p page hp).2 hd

/-- The pages a commit flushes are on disk as they are in the pool, all others as
they were. -/
theorem flushPages_filed (tid : Tid) (pids : List HeapPageId) (h : s.Filed) :
    (∀ p, ((s.flushPages tid pids).pages.lookup p).map Page.heap =
        (s.pages.lookup p).map Page.heap) ∧
      (∀ p, ¬ (p ∈ pids ∧ s.sys.lm.holdsLock tid p = true) →
        (s.flushPages tid pids).pages.lookup p = s.pages.lookup p ∧
          (s.flushPages tid pids).onDisk p = s.onDisk p) ∧
      ∀ p page, p ∈ pids → s.sys.lm.holdsLock tid p = true → s.pages.lookup p = some page →
        (s.flushPages tid pids).onDisk p = some page.heap.contents := by
  induction pids generalizing s with
  | nil => exact ⟨fun _ => rfl, fun _ _ => ⟨rfl, rfl⟩, fun _ _ h => (List.not_mem_nil h).elim⟩
  | cons pid pids ih =>
    unfold flushPages at ih ⊢
    rw [List.foldl_cons]
    by_cases hl : s.sys.lm.holdsLock tid pid = true
    · rw [if_pos hl]
      obtain ⟨fheap, fother, fself, fnone⟩ := flushPage_filed h pid
      have hsys : (s.flushPage pid).sys = s.sys := (s.flushPage_frame pid).1
      obtain ⟨iheap, iother, iself⟩ := ih (flushPage_keeps_filed h pid)
      rw [hsys] at iother iself
      refine ⟨fun p => (iheap p).trans (fheap p), fun p hp => ?_, fun p page hmem hlp hpage => ?_⟩
      · have hpp : p ≠ pid := by
          rintro rfl
          exact hp ⟨List.mem_cons_self, hl⟩
        obtain ⟨h1, h2⟩ := iother p fun h => hp ⟨List.mem_cons_of_mem _ h.1, h.2⟩
        exact ⟨h1.trans (fother p hpp).1, h2.trans (fother p hpp).2⟩
      · obtain ⟨page₁, hp₁, hsame⟩ : ∃ page₁, (s.flushPage pid).pages.lookup p = some page₁ ∧
            page₁.heap = page.heap := by
          have hmap := fheap p
          rw [hpage] at hmap
          exact Option.map_eq_some_iff.mp hmap
        by_cases hin : p ∈ pids
        · rw [iself p page₁ hin hlp hp₁, hsame]
        · have hpp : p = pid := (List.mem_cons.mp hmem).resolve_right hin
          subst hpp
          rw [(iother p fun h => hin h.1).2, fself page hpage]
    · rw [if_neg hl]
      obtain ⟨iheap, iother, iself⟩ := ih h
      refine ⟨iheap, fun p hp => ?_, fun p page hmem hlp hpage => ?_⟩
      · exact iother p fun h => hp ⟨List.mem_cons_of_mem _ h.1, h.2⟩
      · rcases List.mem_cons.mp hmem with rfl | hmem
        · exact absurd hlp hl
        · exact iself p page hmem hlp hpage

/-- An abort that can read the pages of its transaction replaces them by what is
on disk. -/
theorem rereadPages_filed (tid : Tid) (pids : List HeapPageId)
    (h : ∀ p ∈ pids, (s.onDisk p).isSome) :
    (s.rereadPages tid pids).2 = true ∧ (s.rereadPages tid pids).1.disk = s.disk ∧
      (∀ p, ¬ (p ∈ pids ∧ s.sys.lm.holdsLock tid p = true) →
        (s.rereadPages tid pids).1.pages.lookup p = s.pages.lookup p) ∧
      ∀ p, p ∈ pids → s.sys.lm.holdsLock tid p = true →
        ∃ page, (s.rereadPages tid pids).1.pages.lookup p = some page ∧ page.heap.pid = p ∧
          some page.heap.contents = s.onDisk p := by
  induction pids generalizing s with
  | nil => exact ⟨rfl, rfl, fun _ _ => rfl, fun _ h => (List.not_mem_nil h).elim⟩
  | cons pid pids ih =>
    have hrest : ∀ p ∈ pids, (s.onDisk p).isSome := fun p hp => h p (List.mem_cons_of_mem _ hp)
    unfold rereadPages
    by_cases hl : s.sys.lm.holdsLock tid pid = true
    · rw [if_pos hl]
      obtain ⟨raw, hraw⟩ : ∃ raw, s.disk pid = some raw := by
        have hsome := h pid List.mem_cons_self
        rw [onDisk, Option.isSome_map] at hsome
        exact Option.isSome_iff_exists.mp hsome
      have hread : s.readPage pid = some { raw with pid := pid } := by rw [readPage, hraw]; rfl
      simp only [hread]
      obtain ⟨iok, idisk, iother, iself⟩ := ih (s := { s with
        pages := put s.pages pid ⟨{ raw with pid := pid }, none⟩ }) hrest
      refine ⟨iok, idisk, fun p hp => ?_, fun p hmem hlp => ?_⟩
      · have hpp : p ≠ pid := by
          rintro rfl
          exact hp ⟨List.mem_cons_self, hl⟩
        rw [iother p fun h => hp ⟨List.mem_cons_of_mem _ h.1, h.2⟩]
        simp only [lookup_put, if_neg hpp]
      · by_cases hin : p ∈ pids
        · exact iself p hin hlp
        · have hpp : p = pid := (List.mem_cons.mp hmem).resolve_right hin
          subst hpp
          refine ⟨⟨{ raw with pid := p }, none⟩, ?_, rfl, ?_⟩
          · rw [iother p fun h => hin h.1]
            simp [lookup_put]
          · rw [onDisk, hraw]
            rfl
    · rw [if_neg hl]
      obtain ⟨iok, idisk, iother, iself⟩ := ih hrest
      refine ⟨iok, idisk, fun p hp => ?_, fun p hmem hlp => ?_⟩
      · exact iother p fun h => hp ⟨List.mem_cons_of_mem _ h.1, h.2⟩
      · rcases List.mem_cons.mp hmem with rfl | hmem
        · exact absurd hlp hl
        · exact iself p hmem hlp

end BufferPool

end Courses.SimpleDb
