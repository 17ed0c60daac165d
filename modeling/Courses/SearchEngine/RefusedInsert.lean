import Courses.SearchEngine.HashTableRequests

/-!
# Inserting when memory is refused

`InsertHashTable` never answers 0. A resize that cannot be started leaves the table as it
is, which is harmless; but a list node refused to `AppendLinkedList` is counted as if it
were there, and an iterator refused to `HTIteratorNext` ends the copying early. The insert
keeps the contract exactly when its plan is granted and the counter has room.
-/
namespace Courses.SearchEngine

open Courses.Lib Courses.Lib.AllocM

variable {V : Type} {t : HashTable V} {m : FMap HTKey V} {s : Shape}

/-! ## What a table stores -/

/-- The table stores the map and counts it right. -/
def HoldsAs (t : HashTable V) (m : FMap HTKey V) (s : Shape) : Prop :=
  ∃ cs, Chains t cs ∧ Represents (pairs cs.flatten) m ∧ shape cs = s

/-- The table stores less than the map. -/
def Lossy (t : HashTable V) (m : FMap HTKey V) : Prop :=
  ∃ m' s, Stores t m' s ∧ m'.keys ⊂ m.keys

theorem HoldsAs.holds (h : HoldsAs t m s) : Holds t m := by
  obtain ⟨cs, hcs, hm, -⟩ := h
  exact ⟨cs, hcs, hm⟩

theorem HoldsAs.stores (h : HoldsAs t m s) : Stores t m s := by
  obtain ⟨cs, hcs, hm, hs⟩ := h
  exact ⟨t.numElements, cs, hcs, hm, hs⟩

theorem Stores.holdsAs (h : Stores t m s) (hcount : t.numElements.toNat = m.keys.card) :
    HoldsAs t m s := by
  obtain ⟨n, cs, hcs, hm, hs⟩ := h
  have hn : n = t.numElements := by
    apply UInt32.toNat_inj.mp
    rw [hcount]
    exact Holds.numElements ⟨cs, hcs, hm⟩
  subst hn
  exact ⟨cs, hcs, hm, hs⟩

theorem Holds.stores (h : Holds t m) : ∃ s, Stores t m s := by
  obtain ⟨cs, hcs, hm⟩ := h
  exact ⟨_, t.numElements, cs, hcs, hm, rfl⟩

/-- A lookup does not read the counter, so what is stored is unique. -/
theorem Stores.unique {m' : FMap HTKey V} {s' : Shape} (h : Stores t m s) (h' : Stores t m' s') :
    m = m' := by
  obtain ⟨n, cs, hcs, hm, -⟩ := h
  obtain ⟨n', cs', hcs', hm', -⟩ := h'
  apply Finmap.ext_lookup
  intro key
  have hread : Returns (lookupHashTable t key) fun r => r = lookupAnswer m key :=
    returns_lookupHashTable ⟨cs, hcs, hm⟩ key
  have hread' : Returns (lookupHashTable t key) fun r => r = lookupAnswer m' key :=
    returns_lookupHashTable ⟨cs', hcs', hm'⟩ key
  obtain ⟨r, hr, hr'⟩ := (hread.and hread').exists
  exact lookup_eq_of_lookupAnswer (hr.symm.trans hr')

theorem Lossy.not_holds (h : Lossy t m) : ¬ Holds t m := by
  intro hm
  obtain ⟨s, hs⟩ := hm.stores
  obtain ⟨m', s', hm', hlt⟩ := h
  rw [hm'.unique hs] at hlt
  exact hlt.ne rfl

theorem holdsAs_allocated {n : ℕ} (h : Chains t (List.replicate n [])) :
    HoldsAs t ∅ (List.replicate n []) := by
  refine ⟨_, h, ?_, ?_⟩
  · rw [List.flatten_replicate_nil]
    exact represents_nil
  · rw [shape, List.map_replicate]
    rfl

theorem Stores.card_lt (h : Stores t m s) : m.keys.card < 2 ^ 32 := by
  obtain ⟨n, cs, hcs, hm, -⟩ := h
  have hn : n.toNat = m.keys.card := Holds.numElements ⟨cs, hcs, hm⟩
  rw [← hn]
  exact n.toNat_lt

theorem insertAnswer_new {kv : HTKeyValue V} (h : kv.key ∉ m) : insertAnswer m kv = ⟨1, none⟩ := by
  rw [insertAnswer, Finmap.lookup_eq_none.mpr h]

theorem insertAnswer_old {kv : HTKeyValue V} (h : kv.key ∈ m) : (insertAnswer m kv).ret = 2 := by
  obtain ⟨v, hv⟩ := Finmap.mem_iff.mp h
  rw [insertAnswer, hv]

/-! ## Off the plan -/

/-- What is left of an insert of a new key into a table with a wrong counter: the answer is
that of a new key, and nothing but that key has come in. -/
def StoresWithin (kv : HTKeyValue V) (m : FMap HTKey V) (r : Answer V × HashTable V) : Prop :=
  r.1.ret = 1 ∧ ∃ m' s, Stores r.2 m' s ∧ m'.keys ⊆ insert kv.key m.keys

/-- The end of an insert, whatever was refused. -/
theorem leaves_insertEntry (h : Stores t m s) (kv : HTKeyValue V)
    (hfits : kv.key ∉ m → m.keys.card + 1 < 2 ^ 32) :
    Leaves (insertEntry t kv) fun r => r.1.ret = (insertAnswer m kv).ret ∧
      ∃ m' s', Stores r.2 m' s' ∧ m'.keys ⊆ insert kv.key m.keys := by
  refine (follows_insertEntry h kv hfits).leaves.mono ?_
  rintro ⟨answer, t'⟩ (⟨s', rfl, hs', -⟩ | ⟨rfl, hnew, hs'⟩)
  · exact ⟨rfl, _, s', hs', by rw [keys_insert]⟩
  · rw [insertAnswer_new hnew]
    exact ⟨rfl, m, s, hs', Finset.subset_insert _ _⟩

section OffPlan

variable {n : HWSize} {cs : List (Chain V)} {it : HTIter} {e : Ptr × HTKeyValue V}
  {rest : Chain V}

theorem htIteratorNext_recount (n : HWSize) (it : HTIter) :
    htIteratorNext { t with numElements := n } it = htIteratorNext t it := by
  rw [htIteratorNext, htIteratorNext]
  simp only [scanBuckets_recount]
  rfl

theorem leaves_htIteratorNext (hcs : Chains { t with numElements := n } cs)
    (hit : IterAt cs it (e :: rest)) :
    Leaves (htIteratorNext t it) fun r => IterAt cs r.2 rest ∨ r.2.bucketIt = none := by
  obtain ⟨vs, hvs⟩ := hit.upcoming
  obtain ⟨more, vs, rfl⟩ := hvs.exists_cons
  have hnext := (follows_htIteratorNext hcs hvs).leaves
  rw [htIteratorNext_recount] at hnext
  refine hnext.mono ?_
  rintro r (⟨_, hr⟩ | ⟨hr, -⟩)
  · exact Or.inl hr.iterAt
  · exact Or.inr hr

/-- What is copied is new to the table it is copied into, and only that is copied. -/
theorem leaves_rehash {insert : HashTable V → HTKeyValue V → AllocM (Answer V × HashTable V)}
    (hins : ∀ (newht : HashTable V) (m : FMap HTKey V) (s : Shape) (kv : HTKeyValue V),
      Stores newht m s → kv.key ∉ m → m.keys.card + 1 < 2 ^ 32 →
        Leaves (insert newht kv) (StoresWithin kv m))
    (hcs : Chains { t with numElements := n } cs) {fuel : ℕ}
    (hit : IterAt cs it rest ∨ it.bucketIt = none) {newht : HashTable V}
    (hst : Stores newht m s) (hnodup : (keysOf rest).Nodup) (hnew : ∀ k ∈ keysOf rest, k ∉ m)
    (hfits : m.keys.card + rest.length < 2 ^ 32) :
    Leaves (rehash insert t fuel it newht) fun r => r.1 = true ∧
      ∃ m' s', Stores r.2 m' s' ∧ m'.keys ⊆ m.keys ∪ (keysOf rest).toFinset := by
  induction fuel generalizing it rest newht m s with
  | zero => exact leaves_halt
  | succ fuel ih =>
    rw [rehash]
    rcases hit with hit | hdead
    · cases rest with
      | nil =>
        rw [htIteratorPastEnd_eq hit]
        exact leaves_pure ⟨rfl, m, s, hst, Finset.subset_union_left⟩
      | cons e rest =>
        obtain ⟨hkey, hnodup⟩ := List.nodup_cons.mp hnodup
        have hget : Returns (htIteratorGet t it) fun r => r = some e.2 :=
          returns_htIteratorGet hcs hit
        rw [htIteratorPastEnd_eq hit]
        refine (hget.leaves (silent_htIteratorGet _ _)).bind ?_
        rintro _ rfl
        refine (leaves_verifySome _).bind ?_
        rintro item hitem
        cases hitem
        have hroom : m.keys.card + 1 < 2 ^ 32 := by
          rw [List.length_cons] at hfits
          omega
        refine (hins newht m s e.2 hst (hnew _ List.mem_cons_self) hroom).bind ?_
        rintro ⟨answer, newht'⟩ ⟨hret, m', s', hst', hsub⟩
        have hone : ¬ answer.ret ≠ 1 := not_not.mpr hret
        dsimp only
        rw [if_neg hone]
        refine (leaves_htIteratorNext hcs hit).bind fun r hr => ?_
        have hfits' : m'.keys.card + rest.length < 2 ^ 32 := by
          have hle := (Finset.card_le_card hsub).trans (Finset.card_insert_le _ _)
          rw [List.length_cons] at hfits
          omega
        refine (ih hr hst' hnodup (fun k hk hmem => ?_) hfits').mono ?_
        · rcases Finset.mem_insert.mp (hsub (Finmap.mem_keys.mpr hmem)) with rfl | hmem
          · exact hkey hk
          · exact hnew k (List.mem_cons_of_mem _ hk) (Finmap.mem_keys.mp hmem)
        · rintro r ⟨hr, m'', s'', hst'', hsub'⟩
          refine ⟨hr, m'', s'', hst'', fun k hk => ?_⟩
          have hcases := hsub' hk
          have hlift := @hsub k
          simp only [Finset.mem_union, Finset.mem_insert, List.mem_toFinset] at hcases hlift ⊢
          change _ ∨ k ∈ e.2.key :: keysOf rest
          rw [List.mem_cons]
          tauto
    · have hpast : htIteratorPastEnd it = true := by simp [htIteratorPastEnd, hdead]
      rw [hpast]
      exact leaves_pure ⟨rfl, m, s, hst, Finset.subset_union_left⟩

theorem toNat_mul_nine (n : HWSize) : (n * 9).toNat = 9 * n.toNat % 2 ^ 32 := by
  have hnine : (9 : HWSize).toNat = 9 := rfl
  rw [UInt32.toNat_mul, hnine, Nat.mul_comm]

/-- An odd multiple of a bucket count may wrap, but never to nothing. -/
theorem mul_mod_pos {k n : ℕ} (hk : Nat.Coprime (2 ^ 32) k) (hpos : 0 < n) (hlt : n < 2 ^ 32) :
    0 < k * n % 2 ^ 32 := by
  apply Nat.pos_of_ne_zero
  intro hzero
  have hdvd : 2 ^ 32 ∣ n := hk.dvd_of_dvd_mul_left (Nat.dvd_of_mod_eq_zero hzero)
  exact absurd (Nat.le_of_dvd hpos hdvd) (Nat.not_le_of_lt hlt)

theorem pos_mul_nine {n : HWSize} (hpos : 0 < n.toNat) : 0 < (n * 9).toNat := by
  rw [toNat_mul_nine]
  exact mul_mod_pos (by norm_num) hpos n.toNat_lt

theorem keysOf_nodup (h : Represents (pairs cs.flatten) m) : (keysOf cs.flatten).Nodup := by
  have hkeys := h.nodup
  rwa [pairs, List.map_map] at hkeys

theorem toFinset_keysOf (h : Represents (pairs cs.flatten) m) :
    (keysOf cs.flatten).toFinset = m.keys := by
  ext k
  rw [List.mem_toFinset, Finmap.mem_keys, ← h.mem_keys, pairs, List.map_map]
  rfl

/-- An iterator over a table with a wrong counter starts with all of it ahead, or nothing. -/
theorem leaves_hashTableMakeIterator (hcs : Chains { t with numElements := n } cs) :
    Leaves (hashTableMakeIterator t) fun o =>
      ∀ it, o = some it → IterAt cs it [] ∨ IterAt cs it cs.flatten := by
  by_cases hzero : t.numElements = 0
  · rw [hashTableMakeIterator]
    refine leaves_bind fun b => ?_
    cases b with
    | false => exact leaves_pure fun it hit => (nomatch hit)
    | true =>
      rw [if_pos rfl, if_pos hzero]
      refine leaves_pure fun it hit => Or.inl ?_
      cases hit
      exact .pastEnd
  · refine (follows_hashTableMakeIterator hcs hzero).leaves.mono ?_
    rintro o (⟨b, ho⟩ | ho) it rfl
    · rcases ho.cases with hnone | ⟨it', hsome, hit'⟩
      · cases hnone
      · cases hsome
        exact Or.inr hit'.iterAt
    · exact ho.elim

/-- A resize lets nothing in. -/
theorem leaves_resizeHashtable
    {insert : HashTable V → HTKeyValue V → AllocM (Answer V × HashTable V)}
    (hins : ∀ (newht : HashTable V) (m : FMap HTKey V) (s : Shape) (kv : HTKeyValue V),
      Stores newht m s → kv.key ∉ m → m.keys.card + 1 < 2 ^ 32 →
        Leaves (insert newht kv) (StoresWithin kv m)) (h : Stores t m s) :
    Leaves (resizeHashtable insert t) fun r => ∃ m' s', Stores r m' s' ∧ m'.keys ⊆ m.keys := by
  have hkept : Leaves (pure t) fun r => ∃ m' s', Stores r m' s' ∧ m'.keys ⊆ m.keys :=
    leaves_pure ⟨m, s, h, Finset.Subset.refl _⟩
  have hcard := h.card_lt
  obtain ⟨n, cs, hcs, hm, rfl⟩ := h
  rw [resizeHashtable]
  split_ifs with hroom
  · exact hkept
  refine (follows_allocateHashTable (pos_mul_nine hcs.pos)).leaves.bind fun o ho => ?_
  rcases ho with ⟨b, ho⟩ | ho
  swap
  · exact ho.elim
  rcases ho.cases with rfl | ⟨newht, rfl, hnew⟩
  · exact hkept
  refine (leaves_hashTableMakeIterator hcs).bind fun o ho => ?_
  cases o with
  | none => exact leaves_bind fun _ => hkept
  | some it =>
    have hempty := (holdsAs_allocated hnew).stores
    -- whether the iterator starts past the end or at the first entry
    have hcopy : ∀ rest, IterAt cs it rest → rest.Sublist cs.flatten →
        Leaves (rehash insert t (t.numElements.toNat + 1) it newht) fun r => r.1 = true ∧
          ∃ m' s', Stores r.2 m' s' ∧ m'.keys ⊆ m.keys := by
      intro rest hit hsub
      have hkeys : (keysOf rest).Sublist (keysOf cs.flatten) := hsub.map _
      have hlen : (∅ : FMap HTKey V).keys.card + rest.length < 2 ^ 32 := by
        have hle := hsub.length_le
        have hflat : cs.flatten.length = m.keys.card := by
          rw [← hm.length_eq, pairs, List.length_map]
        rw [Finmap.keys_empty, Finset.card_empty, Nat.zero_add]
        omega
      refine (leaves_rehash hins hcs (Or.inl hit) hempty ((keysOf_nodup hm).sublist hkeys)
        (fun k _ => Finmap.notMem_empty) hlen).mono ?_
      rintro r ⟨hr, m', s', hst', hsub'⟩
      refine ⟨hr, m', s', hst', fun k hk => ?_⟩
      rw [← toFinset_keysOf hm]
      have hmem := hsub' hk
      rw [Finmap.keys_empty, Finset.empty_union, List.mem_toFinset] at hmem
      exact List.mem_toFinset.mpr (hkeys.subset hmem)
    have hall : Leaves (rehash insert t (t.numElements.toNat + 1) it newht) fun r =>
        r.1 = true ∧ ∃ m' s', Stores r.2 m' s' ∧ m'.keys ⊆ m.keys := by
      rcases ho it rfl with hit | hit
      · exact hcopy _ hit (List.nil_sublist _)
      · exact hcopy _ hit (List.Sublist.refl _)
    refine hall.bind ?_
    rintro ⟨_, newht'⟩ ⟨rfl, hst'⟩
    exact leaves_bind fun _ => leaves_pure hst'

/-- An insert of a new key, into a table whose counter may be wrong. -/
theorem leaves_insertHashTable (fuel : ℕ) (t : HashTable V) (m : FMap HTKey V) (s : Shape)
    (kv : HTKeyValue V) (h : Stores t m s) (hnew : kv.key ∉ m)
    (hfits : m.keys.card + 1 < 2 ^ 32) :
    Leaves (insertHashTable fuel t kv) (StoresWithin kv m) := by
  induction fuel generalizing t m s kv with
  | zero => exact leaves_halt
  | succ fuel ih =>
    refine (leaves_resizeHashtable (fun newht m s kv => ih newht m s kv) h).bind ?_
    rintro t' ⟨m', s', hst', hsub⟩
    have hnew' : kv.key ∉ m' := by
      intro hmem
      exact hnew (Finmap.mem_keys.mp (hsub (Finmap.mem_keys.mpr hmem)))
    have hfits' : m'.keys.card + 1 < 2 ^ 32 := by
      have hle := Finset.card_le_card hsub
      omega
    refine (leaves_insertEntry hst' kv fun _ => hfits').mono ?_
    rintro r ⟨hret, m'', s'', hst'', hsub'⟩
    rw [insertAnswer_new hnew'] at hret
    exact ⟨hret, m'', s'', hst'', hsub'.trans (Finset.insert_subset_insert _ hsub)⟩

end OffPlan

/-! ## On the plan -/

/-- The contract of an insert that succeeds. -/
def Kept (m : FMap HTKey V) (kv : HTKeyValue V) (r : Answer V × HashTable V) (s : Shape) : Prop :=
  r.1 = insertAnswer m kv ∧ HoldsAs r.2 (m.insert kv.key kv.value) s

/-- What a refused request leaves: a wrong answer, or a right one with an entry missing. -/
def Spoilt (m : FMap HTKey V) (kv : HTKeyValue V) (r : Answer V × HashTable V) : Prop :=
  (r.1.ret = 1 ∧ kv.key ∈ m) ∨
    (r.1.ret = (insertAnswer m kv).ret ∧ Lossy r.2 (m.insert kv.key kv.value))

section OnPlan

variable {cs : List (Chain V)} {it : HTIter} {rest : Chain V} {done : List (HTKey × V)}
  {m' : FMap HTKey V}

/-- The keys of a map whose entries are `done` and those of `rest`. -/
theorem keys_eq_union (hdone : Represents done m') (hall : Represents (done ++ pairs rest) m) :
    m.keys = m'.keys ∪ (keysOf rest).toFinset := by
  ext k
  rw [Finmap.mem_keys, ← hall.mem_keys, List.map_append, List.mem_append, hdone.mem_keys,
    Finset.mem_union, Finmap.mem_keys, List.mem_toFinset, mem_keys_pairs, mem_keysOf]

theorem not_mem_of_rest (hdone : Represents done m') (hall : Represents (done ++ pairs rest) m) :
    ∀ k ∈ keysOf rest, k ∉ m' := by
  intro k hk hmem
  have hnodup := hall.nodup
  rw [List.map_append] at hnodup
  refine List.disjoint_of_nodup_append hnodup (hdone.mem_keys.mpr hmem) ?_
  rw [mem_keys_pairs, ← mem_keysOf]
  exact hk

theorem nodup_of_rest (hall : Represents (done ++ pairs rest) m) : (keysOf rest).Nodup := by
  have hnodup := hall.nodup
  rw [List.map_append] at hnodup
  have hrest := (List.nodup_append.mp hnodup).2.1
  rwa [pairs, List.map_map] at hrest

/-- A loss among what was copied is a loss in the end. -/
theorem lossy_of_rest {t' : HashTable V} {m₁ m₂ : FMap HTKey V} (hdone : Represents done m')
    (hall : Represents (done ++ pairs rest) m) (hlt : m₁.keys ⊂ m'.keys) (hst : Stores t' m₂ s)
    (hsub : m₂.keys ⊆ m₁.keys ∪ (keysOf rest).toFinset) : Lossy t' m := by
  refine ⟨m₂, s, hst, ?_⟩
  obtain ⟨hle, hmiss⟩ := hlt
  obtain ⟨k, hk, hkmiss⟩ := Finset.not_subset.mp hmiss
  rw [keys_eq_union hdone hall]
  refine Finset.ssubset_iff_subset_ne.mpr ⟨hsub.trans (Finset.union_subset_union_left hle), ?_⟩
  intro heq
  have hmem : k ∈ m₂.keys := heq ▸ Finset.mem_union_left _ hk
  rcases Finset.mem_union.mp (hsub hmem) with hk' | hk'
  · exact hkmiss hk'
  · exact not_mem_of_rest hdone hall k (List.mem_toFinset.mp hk') (Finmap.mem_keys.mp hk)

/-- So is what was never visited. -/
theorem lossy_of_unvisited {t' : HashTable V} {m₂ : FMap HTKey V} (hdone : Represents done m')
    (hall : Represents (done ++ pairs rest) m) (hne : rest ≠ []) (hst : Stores t' m₂ s)
    (hsub : m₂.keys ⊆ m'.keys) : Lossy t' m := by
  refine ⟨m₂, s, hst, ?_⟩
  obtain ⟨e, rest, rfl⟩ := List.exists_cons_of_ne_nil hne
  have hfirst : e.2.key ∈ keysOf (e :: rest) := by simp [keysOf]
  rw [keys_eq_union hdone hall]
  refine Finset.ssubset_iff_subset_ne.mpr ⟨hsub.trans Finset.subset_union_left, ?_⟩
  intro heq
  have hmem : e.2.key ∈ m₂.keys :=
    heq ▸ Finset.mem_union_right _ (List.mem_toFinset.mpr hfirst)
  exact not_mem_of_rest hdone hall _ hfirst (Finmap.mem_keys.mp (hsub hmem))

/-- The inserts of a resize go into a table that counts right and holds less than `fuel`. -/
def FollowsInsert (V : Type) (fuel : ℕ) : Prop :=
  ∀ (t : HashTable V) (m : FMap HTKey V) (s : Shape) (kv : HTKeyValue V), HoldsAs t m s →
    (kv.key ∉ m → m.keys.card + 1 < 2 ^ 32) → m.keys.card < fuel →
      AllocM.Follows (insertHashTable fuel t kv) (insertPlan fuel s kv.key) (Kept m kv) (Spoilt m kv)

theorem follows_rehash {fuel : ℕ} (hins : FollowsInsert V fuel) (hcs : Chains t cs)
    {vs : List (HTKey × Bool)} (hit : Upcoming cs it rest vs) {newht : HashTable V}
    (hnew : HoldsAs newht m' s) (hdone : Represents done m')
    (hall : Represents (done ++ pairs rest) m) (hcard : m.keys.card < 2 ^ 32)
    (hfuel : m.keys.card ≤ fuel) {n : ℕ} (hn : rest.length < n) :
    AllocM.Follows (rehash (insertHashTable fuel) t n it newht) (rehashPlan (insertPlan fuel) vs s)
      (fun r s' => r.1 = true ∧ HoldsAs r.2 m s') fun r => r.1 = true ∧ Lossy r.2 m := by
  induction rest generalizing it vs done newht m' s n with
  | nil =>
    obtain _ | n := n
    · exact absurd hn (Nat.not_lt_zero _)
    obtain rfl := hit.eq_nil
    have hsame : m' = m := by
      rw [pairs, List.map_nil, List.append_nil] at hall
      exact hdone.unique hall
    rw [rehash, htIteratorPastEnd_eq hit.iterAt, rehashPlan]
    exact follows_pure ⟨rfl, hsame ▸ hnew⟩
  | cons e rest ih =>
    obtain _ | n := n
    · exact absurd hn (Nat.not_lt_zero _)
    obtain ⟨more, vs, rfl⟩ := hit.exists_cons
    have hfresh : e.2.key ∉ m' := not_mem_of_rest hdone hall _ (by simp [keysOf])
    have hlen : m.keys.card = m'.keys.card + (rest.length + 1) := by
      rw [← hall.length_eq, ← hdone.length_eq, List.length_append, pairs, List.length_map,
        List.length_cons]
    have happend : (done ++ [(e.2.key, e.2.value)]) ++ pairs rest = done ++ pairs (e :: rest) := by
      simp [pairs]
    have hdone' : Represents (done ++ [(e.2.key, e.2.value)]) (m'.insert e.2.key e.2.value) := by
      apply Represents.insert
      · simpa using hdone
      · rw [List.append_nil, hdone.mem_keys]
        exact hfresh
    rw [← happend] at hall
    rw [rehash, htIteratorPastEnd_eq hit.iterAt, rehashPlan]
    refine (returns_htIteratorGet hcs hit.iterAt).follows_bind_eq (silent_htIteratorGet _ _) ?_
    refine (returns_verifySome rfl).follows_bind_eq (silent_verifySome _) ?_
    have hinsert := hins newht m' s e.2 hnew (fun _ => by omega) (by omega)
    refine hinsert.bind ?_ ?_
    · rintro ⟨answer, newht'⟩ s' ⟨hanswer, hnew'⟩
      have hone : ¬ answer.ret ≠ 1 := by
        dsimp only at hanswer
        rw [hanswer, insertAnswer_new hfresh]
        exact not_not.mpr rfl
      dsimp only
      rw [if_neg hone]
      refine (follows_htIteratorNext hcs hit).bind ?_ ?_
      · intro r _ hit'
        exact ih hit' hnew' hdone' hall (Nat.lt_of_succ_lt_succ hn)
      · -- the iterator is gone and with it what it had left
        rintro r ⟨hdead, hne⟩
        have hfits : (m'.insert e.2.key e.2.value).keys.card + ([] : Chain V).length < 2 ^ 32 := by
          rw [← hdone'.length_eq, List.length_append, hdone.length_eq]
          simp only [List.length_singleton, List.length_nil]
          omega
        have hnil : (keysOf ([] : Chain V)).Nodup := List.nodup_nil
        have hnone : ∀ k ∈ keysOf ([] : Chain V), k ∉ m'.insert e.2.key e.2.value :=
          fun k hk => absurd hk List.not_mem_nil
        refine (leaves_rehash (leaves_insertHashTable fuel) (n := t.numElements) hcs (Or.inr hdead)
          hnew'.stores hnil hnone hfits).mono ?_
        rintro r ⟨hr, m₂, s₂, hst₂, hsub⟩
        exact ⟨hr, lossy_of_unvisited hdone' hall hne hst₂ (by simpa [keysOf] using hsub)⟩
    · rintro ⟨answer, newht'⟩ (⟨-, hmem⟩ | ⟨hret, m₁, s₁, hst₁, hlt⟩)
      · exact absurd hmem hfresh
      have hone : ¬ answer.ret ≠ 1 := by
        dsimp only at hret
        rw [hret, insertAnswer_new hfresh]
        exact not_not.mpr rfl
      dsimp only
      rw [if_neg hone]
      refine (leaves_htIteratorNext (n := t.numElements) hcs hit.iterAt).bind fun r hr => ?_
      have hfits : m₁.keys.card + rest.length < 2 ^ 32 := by
        have hle := (Finset.card_lt_card hlt).le
        rw [← hdone'.length_eq, List.length_append, hdone.length_eq, List.length_singleton] at hle
        omega
      refine (leaves_rehash (leaves_insertHashTable fuel) (n := t.numElements) hcs hr hst₁
        (nodup_of_rest hall) (fun k hk hmem => ?_) hfits).mono ?_
      · apply not_mem_of_rest hdone' hall k hk
        exact Finmap.mem_keys.mp (hlt.1 (Finmap.mem_keys.mpr hmem))
      · rintro r ⟨hr, m₂, s₂, hst₂, hsub⟩
        exact ⟨hr, lossy_of_rest hdone' hall hlt hst₂ hsub⟩

theorem HoldsAs.length_flatten (h : HoldsAs t m s) : s.flatten.length = t.numElements.toNat := by
  obtain ⟨cs, hcs, -, rfl⟩ := h
  rw [flatten_shape, keysOf, List.length_map]
  exact hcs.count.symm

theorem HoldsAs.length (h : HoldsAs t m s) : s.length = t.numBuckets.toNat := by
  obtain ⟨cs, hcs, -, rfl⟩ := h
  rw [shape, List.length_map]
  exact hcs.length

/-- The test for a resize, as the plan makes it. -/
theorem HoldsAs.full_iff (h : HoldsAs t m s) :
    t.numElements < 3 * t.numBuckets ↔ s.flatten.length < 3 * s.length % 2 ^ 32 := by
  have hthree : (3 : HWSize).toNat = 3 := rfl
  rw [UInt32.lt_iff_toNat_lt, UInt32.toNat_mul, hthree, h.length_flatten, h.length]

/-- A full table is not empty. -/
theorem HoldsAs.ne_zero (h : HoldsAs t m s) (hfull : ¬ t.numElements < 3 * t.numBuckets) :
    t.numElements ≠ 0 := by
  intro hzero
  have hpos : 0 < t.numBuckets.toNat := by
    obtain ⟨cs, hcs, -⟩ := h
    exact hcs.pos
  apply mt h.full_iff.mpr hfull
  rw [h.length_flatten, h.length, hzero, UInt32.toNat_zero]
  exact mul_mod_pos (by norm_num) hpos t.numBuckets.toNat_lt

/-- A resize keeps all of the table, unless one of the requests it does not look at is
refused. -/
theorem follows_resizeHashtable {fuel : ℕ} (hins : FollowsInsert V fuel) (h : HoldsAs t m s)
    (hfuel : m.keys.card ≤ fuel) :
    AllocM.Follows (resizeHashtable (insertHashTable fuel) t) (resizePlan (insertPlan fuel) s)
      (fun r s' => HoldsAs r m s') fun r => Lossy r m := by
  have hkept : AllocM.Follows (pure t) (pure s) (fun r s' => HoldsAs r m s') fun r => Lossy r m :=
    follows_pure h
  have hcard := h.stores.card_lt
  rw [resizeHashtable, resizePlan]
  by_cases hfull : t.numElements < 3 * t.numBuckets
  · rw [if_pos hfull, if_pos (h.full_iff.mp hfull)]
    exact hkept
  · have hne := h.ne_zero hfull
    rw [if_neg hfull, if_neg (mt h.full_iff.mpr hfull), h.length, ← toNat_mul_nine]
    obtain ⟨cs, hcs, hm, rfl⟩ := h
    refine (follows_allocateHashTable (pos_mul_nine hcs.pos)).bind_gives (fun newht hnew => ?_)
      hkept
    rw [if_pos rfl]
    refine (follows_hashTableMakeIterator (n := t.numElements) hcs hne).bind_gives
      (fun it hit => ?_) ?_
    · rw [if_pos rfl, ← bind_pure (rehashPlan _ _ _)]
      have hn : cs.flatten.length < t.numElements.toNat + 1 := by
        rw [hcs.count]
        exact Nat.lt_succ_self _
      have hcopy := follows_rehash hins hcs hit (holdsAs_allocated hnew) represents_nil hm hcard
        hfuel hn
      refine hcopy.bind ?_ ?_
      · rintro ⟨_, newht'⟩ s' ⟨rfl, hnew'⟩
        exact (returns_freeHashTable hcs).follows_bind (silent_freeHashTable _)
          fun _ _ => follows_pure hnew'
      · rintro ⟨_, newht'⟩ ⟨rfl, hlossy⟩
        exact leaves_bind fun _ => leaves_pure hlossy
    · rw [if_neg Bool.false_ne_true]
      exact (returns_freeHashTable hnew).follows_bind (silent_freeHashTable _) fun _ _ => hkept

/-- An entry into a table that counts right is counted right. -/
theorem Inserted.kept {kv : HTKeyValue V} {r : Answer V × HashTable V} {s' : Shape}
    (h : HoldsAs t m s) (hfits : kv.key ∉ m → m.keys.card + 1 < 2 ^ 32)
    (hr : Inserted t m kv r s') : Kept m kv r s' := by
  obtain ⟨hanswer, hst, hnum⟩ := hr
  refine ⟨hanswer, hst.holdsAs ?_⟩
  have hcount := h.holds.numElements
  rw [hnum, keys_insert]
  split_ifs with hmem
  · rw [hcount, Finset.insert_eq_of_mem (Finmap.mem_keys.mpr hmem)]
  · have hlt := hfits hmem
    rw [Finset.card_insert_of_notMem (mt Finmap.mem_keys.mp hmem), UInt32.toNat_add, hcount,
      UInt32.toNat_one, Nat.mod_eq_of_lt hlt]

/-- An entry into a table that has lost something. -/
theorem leaves_insertEntry_lossy {m' : FMap HTKey V} (h : Stores t m' s) (hlt : m'.keys ⊂ m.keys)
    (hcard : m.keys.card < 2 ^ 32) (kv : HTKeyValue V) :
    Leaves (insertEntry t kv) (Spoilt m kv) := by
  have hfits : m'.keys.card + 1 < 2 ^ 32 := by
    have hcards := Finset.card_lt_card hlt
    omega
  refine (leaves_insertEntry h kv fun _ => hfits).mono ?_
  rintro r ⟨hret, m'', s'', hst'', hsub⟩
  obtain ⟨k, hk, hkmiss⟩ := Finset.not_subset.mp hlt.2
  -- unless the lost key comes back as a new one, it stays lost
  have hlossy (hkey : k ≠ kv.key) : Lossy r.2 (m.insert kv.key kv.value) := by
    refine ⟨m'', s'', hst'', ?_⟩
    rw [keys_insert]
    refine Finset.ssubset_iff_subset_ne.mpr
      ⟨hsub.trans (Finset.insert_subset_insert _ hlt.1), fun heq => ?_⟩
    have hmem := hsub (heq ▸ Finset.mem_insert_of_mem hk)
    rcases Finset.mem_insert.mp hmem with hk' | hk'
    · exact hkey hk'
    · exact hkmiss hk'
  by_cases hold : kv.key ∈ m'
  · right
    have hold' : kv.key ∈ m := Finmap.mem_keys.mp (hlt.1 (Finmap.mem_keys.mpr hold))
    refine ⟨?_, hlossy ?_⟩
    · rw [hret, insertAnswer_old hold, insertAnswer_old hold']
    · rintro rfl
      exact hkmiss (Finmap.mem_keys.mpr hold)
  · rw [insertAnswer_new hold] at hret
    by_cases hnew : kv.key ∈ m
    · exact Or.inl ⟨hret, hnew⟩
    · right
      refine ⟨?_, hlossy ?_⟩
      · rw [hret, insertAnswer_new hnew]
      · rintro rfl
        exact hnew (Finmap.mem_keys.mp hk)

theorem follows_insertHashTable (fuel : ℕ) : FollowsInsert V fuel := by
  induction fuel with
  | zero => exact fun t m s kv _ _ hfuel => absurd hfuel (Nat.not_lt_zero _)
  | succ fuel ih =>
    intro t m s kv h hfits hfuel
    refine (follows_resizeHashtable ih h (Nat.lt_succ_iff.mp hfuel)).bind ?_ ?_
    · intro t' s' h'
      refine (follows_insertEntry h'.stores kv hfits).mono (fun r s'' hr => hr.kept h' hfits) ?_
      rintro r ⟨hanswer, hnew, hst⟩
      right
      rw [hanswer, insertAnswer_new hnew]
      refine ⟨rfl, m, s', hst, ?_⟩
      rw [keys_insert]
      exact Finset.ssubset_insert (mt Finmap.mem_keys.mp hnew)
    · rintro t' ⟨m', s', hst', hlt⟩
      exact leaves_insertEntry_lossy hst' hlt h.stores.card_lt kv

end OnPlan

/-! ## The contract -/

/-- What `HashTable.h` says of an insert into a table holding `m`: it answers 1, or 2 with the
old entry, and the entry is in; or it answers 0 and nothing has changed. A table that holds a
map counts its entries right. -/
def MeetsContract (t : HashTable V) (m : FMap HTKey V) (kv : HTKeyValue V)
    (r : Answer V × HashTable V) : Prop :=
  (r.1 = insertAnswer m kv ∧ Holds r.2 (m.insert kv.key kv.value)) ∨
    (r.1.ret = 0 ∧ Holds r.2 m ∧ numElementsInHashTable r.2 = numElementsInHashTable t)

theorem insertAnswer_ne_zero (m : FMap HTKey V) (kv : HTKeyValue V) :
    (insertAnswer m kv).ret ≠ 0 := by
  by_cases h : kv.key ∈ m
  · rw [insertAnswer_old h]
    decide
  · rw [insertAnswer_new h]
    exact one_ne_zero

theorem Spoilt.not_meetsContract {kv : HTKeyValue V} {r : Answer V × HashTable V}
    (h : Spoilt m kv r) : ¬ MeetsContract t m kv r := by
  rintro (⟨hanswer, hholds⟩ | ⟨hzero, -⟩)
  · rcases h with ⟨hret, hmem⟩ | ⟨-, hlossy⟩
    · rw [hanswer, insertAnswer_old hmem] at hret
      exact absurd hret (by decide)
    · exact hlossy.not_holds hholds
  · rcases h with ⟨hret, -⟩ | ⟨hret, -⟩
    · rw [hret] at hzero
      exact absurd hzero (by decide)
    · exact insertAnswer_ne_zero m kv (hret.symm.trans hzero)

/-- `InsertHashTable` never answers 0. -/
theorem leaves_ret_ne_zero (fuel : ℕ) (t : HashTable V) (kv : HTKeyValue V) :
    Leaves (insertHashTable fuel t kv) fun r => r.1.ret ≠ 0 := by
  cases fuel with
  | zero => exact leaves_halt
  | succ fuel =>
    refine leaves_bind fun t => ?_
    rw [insertEntry]
    refine leaves_bind fun i => leaves_bind fun chain => leaves_bind fun location => ?_
    cases location with
    | none =>
      refine leaves_bind fun b => leaves_bind fun _ => leaves_bind fun d => leaves_pure ?_
      exact one_ne_zero
    | some it => exact leaves_bind fun payload => leaves_bind fun d => leaves_pure two_ne_zero

/-- With the counter at its end, no insert of a new key is counted. -/
theorem not_holds_insert {kv : HTKeyValue V} (hnew : kv.key ∉ m)
    (hfull : ¬ m.keys.card + 1 < 2 ^ 32) : ¬ Holds t (m.insert kv.key kv.value) := by
  intro h
  have hcount := h.numElements
  have hlt := t.numElements.toNat_lt
  rw [keys_insert, Finset.card_insert_of_notMem (mt Finmap.mem_keys.mp hnew)] at hcount
  omega

/-- An insert into a table that holds a map, under any oracle under which no assertion fails:
it returns and meets the contract exactly when every list node it asks for in `AppendLinkedList`
and every iterator it asks for in `HTIteratorNext` is granted, its own and those of the inserts
made by a resize, and the counter has room for a new key. -/
theorem insertHashTable_meetsContract_iff {cs : List (Chain V)} (hcs : Chains t cs)
    (hm : Represents (pairs cs.flatten) m) (kv : HTKeyValue V) (ok : ℕ → Bool) (n : ℕ)
    {fuel : ℕ} (hfuel : m.keys.card < fuel)
    (hrun : insertHashTable fuel t kv ok n ≠ .error .verify) :
    (∃ r n', insertHashTable fuel t kv ok n = .ok (r, n') ∧ MeetsContract t m kv r) ↔
      (insertPlan fuel (shape cs) kv.key).Granted ok n ∧
        (kv.key ∈ m ∨ m.keys.card + 1 < 2 ^ 32) := by
  have hholds : HoldsAs t m (shape cs) := ⟨cs, hcs, hm, rfl⟩
  by_cases hfits : kv.key ∉ m → m.keys.card + 1 < 2 ^ 32
  · obtain ⟨hsome, hnone⟩ := follows_insertHashTable fuel t m (shape cs) kv hholds hfits hfuel ok n
    have hroom : kv.key ∈ m ∨ m.keys.card + 1 < 2 ^ 32 := or_iff_not_imp_left.mpr hfits
    rw [and_iff_left hroom]
    constructor
    · rintro ⟨r, n', hr, hmeets⟩
      rw [Plan.Granted, Option.isSome_iff_ne_none]
      intro hplan
      exact (hnone hplan r n' hr).not_meetsContract hmeets
    · intro hplan
      obtain ⟨⟨s', n'⟩, hs'⟩ := Option.isSome_iff_exists.mp hplan
      rcases hsome s' n' hs' with hstop | ⟨r, hr, hanswer, hkept⟩
      · exact absurd hstop hrun
      · exact ⟨r, n', hr, Or.inl ⟨hanswer, hkept.holds⟩⟩
  · obtain ⟨hnew, hfull⟩ := Classical.not_imp.mp hfits
    constructor
    · rintro ⟨r, n', hr, ⟨-, hr'⟩ | ⟨hzero, -⟩⟩
      · exact absurd hr' (not_holds_insert hnew hfull)
      · exact absurd hzero (leaves_ret_ne_zero fuel t kv ok n r n' hr)
    · rintro ⟨-, hmem | hlt⟩
      · exact absurd hmem hnew
      · exact absurd hlt hfull

/-- One bucket and nothing in it. -/
def emptyTable : HashTable ℕ where
  numBuckets := 1
  numElements := 0
  buckets := [{ numElements := 0, head := none, tail := none, nodes := fun _ => none, fresh := 1 }]

theorem chains_emptyTable : Chains emptyTable [[]] :=
  chains_allocated (.cons ⟨rfl, rfl, rfl, trivial, List.nodup_nil, by simp⟩ .nil) (by decide)

/-- Two requests, both granted: an insert into the empty table meets its contract. -/
theorem insertHashTable_meetsContract_granted :
    ∃ r n', insertHashTable 1 emptyTable ⟨1, 10⟩ (fun i => i < 2) 0 = .ok (r, n') ∧
      MeetsContract emptyTable ∅ ⟨1, 10⟩ r :=
  (insertHashTable_meetsContract_iff chains_emptyTable represents_nil ⟨1, 10⟩ (fun i => i < 2) 0
    (by decide) fun h => absurd (congrArg Except.isOk h) (by decide)).mpr
      ⟨by decide, Or.inr (by decide)⟩

/-- The payload is granted and the list node refused: the insert answers 1 and counts an entry
that is not there. -/
theorem not_insertHashTable_meetsContract :
    ¬ ∀ (t : HashTable ℕ) (m : FMap HTKey ℕ) (kv : HTKeyValue ℕ) (ok : ℕ → Bool) (n fuel : ℕ),
      Holds t m → m.keys.card < fuel → insertHashTable fuel t kv ok n ≠ .error .verify →
        ∃ r n', insertHashTable fuel t kv ok n = .ok (r, n') ∧ MeetsContract t m kv r := by
  intro h
  have hempty : Holds emptyTable ∅ := ⟨_, chains_emptyTable, represents_nil⟩
  have hrun : insertHashTable 1 emptyTable ⟨1, 10⟩ (fun i => i = 0) 0 =
      .ok ((⟨1, none⟩, { emptyTable with numElements := 1 }), 2) := rfl
  obtain ⟨r, n', hr, hmeets⟩ := h emptyTable ∅ ⟨1, 10⟩ (fun i => i = 0) 0 1 hempty (by decide)
    fun hstop => nomatch hrun.symm.trans hstop
  obtain ⟨rfl, -⟩ := Prod.mk.inj (Except.ok.inj (hrun.symm.trans hr))
  rcases hmeets with ⟨-, hholds⟩ | ⟨hret, -⟩
  · have hstores : Stores { emptyTable with numElements := 1 } (∅ : FMap HTKey ℕ) [[]] :=
      ⟨0, [[]], chains_emptyTable, represents_nil, rfl⟩
    refine Lossy.not_holds ⟨∅, _, hstores, ?_⟩ hholds
    rw [keys_insert, Finmap.keys_empty]
    exact Finset.ssubset_insert (Finset.notMem_empty _)
  · exact absurd hret (by decide)

end Courses.SearchEngine
